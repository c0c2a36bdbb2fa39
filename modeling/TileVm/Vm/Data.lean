/-
The data of the machine: the operand stack, the globals, the heap, what was printed and the state of
the native library. An instruction that neither goes elsewhere nor reads a local variable does to
the data what it does in any other control state, so that it can be run on the data alone.
-/
import TileVm.Lib.Relate
import TileVm.Vm.Exec

namespace TileVm

open Except (Follows)

variable {W : Type}

/-! ## Data -/

/-- The data of a state. -/
structure Data (W : Type) where
  stack : CArray ObjectT tvmStackCapacity
  sp : Nat
  globalVars : CArray ObjectT tvmMaxLocalVar
  heap : TgcHeap
  out : List Byte
  world : W

/-- The tables of a program that instructions read. -/
structure ProgramTables where
  metadata : TvmProgramMetadata
  constTable : TvmConstTable

def TvmProgram.tables (p : TvmProgram) : ProgramTables := ⟨p.metadata, p.constTable⟩

namespace Vm

def data (vm : Vm W) : Data W := ⟨vm.stack, vm.sp, vm.globalVars, vm.heap, vm.out, vm.world⟩

/-- `control` with the data and the tables of `vm`. -/
def around (vm control : Vm W) : Vm W :=
  { control with
    stack := vm.stack, sp := vm.sp, globalVars := vm.globalVars, heap := vm.heap, out := vm.out, world := vm.world
    program := { control.program with metadata := vm.program.metadata, constTable := vm.program.constTable } }

end Vm

/-- A machine that stands at the beginning of no code, with this data. -/
def Data.idle (tables : ProgramTables) (d : Data W) : Vm W where
  stack := d.stack
  sp := d.sp
  returnStack := .fill 0
  rsp := 0
  frame := 0
  frames := FrameStore.empty
  globalVars := d.globalVars
  program := { TvmProgram.zero with metadata := tables.metadata, constTable := tables.constTable }
  ip := 0
  halted := false
  heap := d.heap
  out := d.out
  world := d.world

/-- The instructions that go elsewhere, and those on local variables. -/
def OpType.isControl : OpType → Bool
  | .jmp | .jz | .jnz | .call | .ret | .halt | .load | .store => true
  | _ => false

/-- The switch on the data alone. -/
def dataOp (env : Env W) (tables : ProgramTables) (op : OpType) (inst : Opcode) (d : Data W) :
    Except Fault (TvmException × Data W) :=
  (tvmExecOp env op inst (d.idle tables)).map fun r => (r.1, r.2.data)

/-! ## The same in another control state -/

/-- `y` fails as `x` does, or returns the same exception and the same data. -/
abbrev DataAlike (x y : Except Fault (Ret W)) : Prop :=
  Follows True (fun _ => True) (fun r r' : Ret W => r'.1 = r.1 ∧ r'.2.data = r.2.data) x y

variable {vm control : Vm W} {env : Env W} {inst : Opcode}

theorem raise_alike (e : TvmException) : DataAlike (raise e vm) (raise e (vm.around control)) :=
  .ok fun _ => ⟨rfl, rfl⟩

theorem guard_alike {c : Prop} [Decidable c] {e : TvmException} {x y : Except Fault (Ret W)}
    (h : ¬ c → DataAlike x y) :
    DataAlike (if c then raise e vm else x) (if c then raise e (vm.around control) else y) :=
  .ite Iff.rfl (fun _ => raise_alike e) h

theorem next_alike (vm control : Vm W) : DataAlike (done vm.next) (done (vm.around control).next) :=
  .ok fun _ => ⟨rfl, rfl⟩

theorem stackSet_alike (vm : Vm W) {i : Nat} {o : ObjectT} {f g : Vm W → Except Fault (Ret W)}
    (h : ∀ stack, DataAlike (f { vm with stack }) (g ({ vm with stack }.around control))) :
    DataAlike (vm.stackSet i o >>= f) ((vm.around control).stackSet i o >>= g) := by
  unfold Vm.stackSet CArray.store
  split
  · exact h _
  · exact .error _

/-! ## Families -/

section Families

variable (vm control)

theorem applyTwo_alike (f : ObjectT → ObjectT → Except Fault ObjectT) :
    DataAlike (applyTwo f vm) (applyTwo f (vm.around control)) := by
  refine .bind_same rfl fun b _ => .bind_same rfl fun a _ => .bind_same rfl fun c _ => ?_
  exact stackSet_alike vm fun stack => next_alike ({ vm with stack }.setSp (vm.sp - 1)) control

theorem binaryOp_alike (f : ObjectT → ObjectT → Except Fault ObjectT) :
    DataAlike (binaryOp f vm) (binaryOp f (vm.around control)) :=
  guard_alike fun _ => applyTwo_alike vm control f

theorem arithOp_alike (f : ObjectT → ObjectT → Except Fault ObjectT) :
    DataAlike (arithOp f vm) (arithOp f (vm.around control)) :=
  guard_alike fun _ => guard_alike fun _ => applyTwo_alike vm control f

theorem divOp_alike (f : ObjectT → ObjectT → Except Fault ObjectT) :
    DataAlike (divOp f vm) (divOp f (vm.around control)) :=
  guard_alike fun _ => guard_alike fun _ => .bind_same rfl fun _ _ => guard_alike fun _ => applyTwo_alike vm control f

theorem unaryOp_alike (f : ObjectT → ObjectT) : DataAlike (unaryOp f vm) (unaryOp f (vm.around control)) :=
  guard_alike fun _ => .bind_same rfl fun _ _ => stackSet_alike vm fun stack => next_alike { vm with stack } control

theorem pushWith_alike (f : ObjectT → Except Fault ObjectT) :
    DataAlike (pushWith f vm) (pushWith f (vm.around control)) := by
  refine .bind_same rfl fun old _ => .bind_same rfl fun o _ => ?_
  exact stackSet_alike vm fun stack => next_alike ({ vm with stack }.setSp (vm.sp + 1)) control

theorem loadTop_alike (f : Addr → Except Fault (BitVec 64)) : DataAlike (loadTop f vm) (loadTop f (vm.around control)) :=
  .bind_same rfl fun _ _ => .bind_same rfl fun _ _ => stackSet_alike vm fun stack => next_alike { vm with stack } control

/-! ## The opcodes -/

theorem opLoadc_alike : DataAlike (opLoadc inst vm) (opLoadc inst (vm.around control)) := by
  refine guard_alike fun _ => guard_alike fun _ => .bind_same rfl fun r _ => ?_
  exact .ite Iff.rfl (fun _ => .error _) fun _ => pushWith_alike vm control _

theorem opAloadc_alike : DataAlike (opAloadc env inst vm) (opAloadc env inst (vm.around control)) :=
  guard_alike fun _ => guard_alike fun _ => .bind_same rfl fun _ _ => pushWith_alike vm control _

theorem opGload_alike : DataAlike (opGload inst vm) (opGload inst (vm.around control)) :=
  guard_alike fun _ => guard_alike fun _ => .bind_same rfl fun _ _ => pushWith_alike vm control _

theorem opGstore_alike : DataAlike (opGstore inst vm) (opGstore inst (vm.around control)) := by
  refine guard_alike fun _ => guard_alike fun _ => .bind_same rfl fun o _ => .bind_same rfl fun globalVars _ => ?_
  exact next_alike { vm.setSp (vm.sp - 1) with globalVars } control

theorem opHalloc_alike : DataAlike (opHalloc env vm) (opHalloc env (vm.around control)) := by
  refine guard_alike fun _ => .bind_same rfl fun size _ => .bind_same rfl fun count _ => .bind_same rfl fun r _ => ?_
  exact stackSet_alike { vm with heap := r.2 } fun stack =>
    next_alike ({ vm with heap := r.2, stack }.setSp (vm.sp - 1)) control

theorem opDerefb_alike : DataAlike (opDerefb env inst vm) (opDerefb env inst (vm.around control)) := by
  refine guard_alike fun _ => guard_alike fun _ => .ite Iff.rfl (fun _ => loadTop_alike vm control _) fun _ => ?_
  refine .ite Iff.rfl (fun _ => loadTop_alike vm control _) fun _ => ?_
  exact .ite Iff.rfl (fun _ => loadTop_alike vm control _) fun _ => raise_alike _

theorem heapSet_alike (width offset : BitVec 32) :
    DataAlike (heapSet env width offset vm) (heapSet env width offset (vm.around control)) := by
  refine .bind_same rfl fun addr _ => .bind_same rfl fun size _ => guard_alike fun _ => ?_
  refine .ite Iff.rfl (fun _ => ?_) fun _ => raise_alike _
  refine .bind_same rfl fun value _ => .bind_same rfl fun o _ => .bind_same rfl fun heap _ => ?_
  exact next_alike ({ vm with heap }.setSp (vm.sp - 4)) control

theorem opHset_alike : DataAlike (opHset env vm) (opHset env (vm.around control)) :=
  guard_alike fun _ => .bind_same rfl fun _ _ => .bind_same rfl fun _ _ => heapSet_alike vm control _ _

theorem opHsetof_alike : DataAlike (opHsetof env vm) (opHsetof env (vm.around control)) :=
  guard_alike fun _ => .bind_same rfl fun _ _ => .bind_same rfl fun _ _ => heapSet_alike vm control _ _

theorem opPuts_alike : DataAlike (opPuts env vm) (opPuts env (vm.around control)) := by
  refine guard_alike fun _ => .bind_same rfl fun o _ => .bind_same rfl fun s _ => ?_
  exact next_alike { vm.setSp (vm.sp - 1) with out := vm.out ++ s } control

theorem opPutc_alike : DataAlike (opPutc vm) (opPutc (vm.around control)) :=
  guard_alike fun _ => .bind_same rfl fun o _ =>
    next_alike { vm.setSp (vm.sp - 1) with out := vm.out ++ [o.ui8] } control

theorem gatherArgs_alike (todo i slot : Nat) :
    gatherArgs (vm.around control) todo i slot = gatherArgs vm todo i slot := by
  induction todo generalizing i slot with
  | zero => rfl
  | succ todo ih =>
    unfold gatherArgs
    rw [ih]
    rfl

/-- A native call sees the table of functions and the heap. -/
theorem tciNativeCall_alike (lib : NativeLib W) (id : Nat) (rvalue : Option (BitVec 64)) (avalues : List (BitVec 64)) :
    Follows True (fun _ => True) (fun r r' => r'.1 = r.1.around control ∧ r'.2 = r.2)
      (tciNativeCall lib vm id rvalue avalues) (tciNativeCall lib (vm.around control) id rvalue avalues) := by
  unfold tciNativeCall
  refine .bind_same rfl fun f _ => .bind_same rfl fun name _ => ?_
  cases lib.isOk id with
  | none => exact .error _
  | some ok =>
    cases ok with
    | false => exact .ok fun _ => ⟨rfl, rfl⟩
    | true =>
      dsimp only
      cases lib.dlsym name with
      | none => exact .error _
      | some fn =>
        refine .bind_same rfl fun args _ => ?_
        cases rvalue with
        | none => exact .ok fun _ => ⟨rfl, rfl⟩
        | some ret => exact .bind_same rfl fun v _ => .ok fun _ => ⟨rfl, rfl⟩

theorem opNative_alike : DataAlike (opNative env inst vm) (opNative env inst (vm.around control)) := by
  unfold opNative
  refine .bind_same rfl fun f _ => .bind_same rfl fun m _ => ?_
  refine guard_alike fun _ => guard_alike fun _ => guard_alike fun _ => ?_
  refine .bind_same (gatherArgs_alike vm control _ _ _) fun vargs _ => .ite Iff.rfl (fun _ => ?_) fun _ => ?_
  · refine .bind (tciNativeCall_alike (vm.setSp (vm.sp - f.acount)) control env.native _ none vargs) ?_
    rintro ⟨w, v⟩ ⟨w', v'⟩ - ⟨hw, -⟩
    cases hw
    exact next_alike w control
  · refine .bind (tciNativeCall_alike (vm.setSp (vm.sp - f.acount)) control env.native _ (some 0) vargs) ?_
    rintro ⟨w, v⟩ ⟨w', v'⟩ - ⟨hw, hv⟩
    cases hw
    cases hv
    exact pushWith_alike w control _

/-- Every instruction but those of control. -/
theorem tvmExecOp_alike (env : Env W) (inst : Opcode) {op : OpType} (hop : op.isControl = false) :
    DataAlike (tvmExecOp env op inst vm) (tvmExecOp env op inst (vm.around control)) := by
  cases op with
  | jmp | jz | jnz | call | ret | halt | load | store => cases hop
  | nop => exact next_alike vm control
  | push => exact guard_alike fun _ => pushWith_alike vm control _
  | pop => exact guard_alike fun _ => next_alike (vm.setSp (vm.sp - 1)) control
  | add | sub | mult | addf | subf | multf | divf | gt | gtf | lt | ltf | eq | eqf | ge | gef | le | lef | and | or =>
    exact arithOp_alike vm control _
  | div | mod => exact divOp_alike vm control _
  | band | bor | lshft | rshft => exact binaryOp_alike vm control _
  | inc | incf | dec | decf | ci2f | ci2u | cf2i | cf2u | cu2i | cu2f | not | bnot => exact unaryOp_alike vm control _
  | dup => exact guard_alike fun _ => guard_alike fun _ => .bind_same rfl fun _ _ => pushWith_alike vm control _
  | cln =>
    exact guard_alike fun _ => guard_alike fun _ => guard_alike fun _ => .bind_same rfl fun _ _ =>
      pushWith_alike vm control _
  | swap =>
    refine guard_alike fun _ => guard_alike fun _ => .bind_same rfl fun temp _ => .bind_same rfl fun a _ => ?_
    exact stackSet_alike vm fun stack => stackSet_alike { vm with stack } fun stack =>
      next_alike { vm with stack } control
  | loadc => exact opLoadc_alike vm control
  | aloadc => exact opAloadc_alike vm control
  | gload => exact opGload_alike vm control
  | gstore => exact opGstore_alike vm control
  | halloc => exact opHalloc_alike vm control
  | deref => exact guard_alike fun _ => loadTop_alike vm control _
  | derefb => exact opDerefb_alike vm control
  | hset => exact opHset_alike vm control
  | hsetof => exact opHsetof_alike vm control
  | puts => exact opPuts_alike vm control
  | putc => exact opPutc_alike vm control
  | native => exact opNative_alike vm control

end Families

/-- What an instruction does to the data of a state, it does to the data alone. -/
theorem dataOp_eq (env : Env W) (inst : Opcode) {op : OpType} (hop : op.isControl = false) (vm : Vm W) :
    (tvmExecOp env op inst vm).map (fun r => (r.1, r.2.data)) = dataOp env vm.program.tables op inst vm.data := by
  have h := tvmExecOp_alike vm (vm.data.idle vm.program.tables) env inst hop
  have hidle : vm.around (vm.data.idle vm.program.tables) = vm.data.idle vm.program.tables := rfl
  rw [hidle] at h
  unfold dataOp
  cases hx : tvmExecOp env op inst vm with
  | error f => rw [h.fault trivial f hx]
  | ok r =>
    obtain ⟨r', hr', he, hd⟩ := h.result r hx trivial
    rw [hr']
    exact congrArg Except.ok (Prod.ext he.symm hd.symm)

end TileVm
