/-
One step of the machine: `tvm_exec_opcode`. A step either faults or returns an exception code
with the state as the step has left it; the state a branch returns is the one that the source
has at that point, so a guard after an update would show.
-/
import TileVm.Vm.State

namespace TileVm

variable {W : Type}

/-- What `tvm_exec_opcode` returns, with the state it leaves. -/
abbrev Ret (W : Type) := TvmException × Vm W

/-- `return EXCEPT_...;` -/
def raise (e : TvmException) (vm : Vm W) : Except Fault (Ret W) := .ok (e, vm)

/-- `break;`, and `return EXCEPT_OK;` after the switch. -/
def done (vm : Vm W) : Except Fault (Ret W) := .ok (.ok, vm)

/-! ## Families of opcodes -/

/-- `stack[sp - 2] op= stack[sp - 1]; sp--; ip++`. -/
def applyTwo (f : ObjectT → ObjectT → Except Fault ObjectT) (vm : Vm W) : Except Fault (Ret W) := do
  let b ← vm.stackAt (vm.sp - 1)
  let a ← vm.stackAt (vm.sp - 2)
  let c ← f a b
  let vm ← vm.stackSet (vm.sp - 2) c
  done (vm.setSp (vm.sp - 1)).next

/-- The bitwise and shift opcodes, which have no capacity guard. -/
def binaryOp (f : ObjectT → ObjectT → Except Fault ObjectT) (vm : Vm W) : Except Fault (Ret W) :=
  if vm.sp < 2 then raise .stackUnderflow vm
  else applyTwo f vm

/-- The arithmetic and comparison opcodes: both guards, then the operation. -/
def arithOp (f : ObjectT → ObjectT → Except Fault ObjectT) (vm : Vm W) : Except Fault (Ret W) :=
  if vm.sp < 2 then raise .stackUnderflow vm
  else if tvmStackCapacity ≤ vm.sp then raise .stackOverflow vm
  else applyTwo f vm

/-- `OP_DIV` and `OP_MOD`: both guards, the zero check, then the operation. -/
def divOp (f : ObjectT → ObjectT → Except Fault ObjectT) (vm : Vm W) : Except Fault (Ret W) :=
  if vm.sp < 2 then raise .stackUnderflow vm
  else if tvmStackCapacity ≤ vm.sp then raise .stackOverflow vm
  else do
    let b ← vm.stackAt (vm.sp - 1)
    if b.ui32 = 0 then raise .divisionByZero vm else applyTwo f vm

/-- `stack[sp - 1] = op stack[sp - 1]`. -/
def unaryOp (f : ObjectT → ObjectT) (vm : Vm W) : Except Fault (Ret W) :=
  if vm.sp < 1 then raise .stackUnderflow vm
  else do
    let a ← vm.stackAt (vm.sp - 1)
    let vm ← vm.stackSet (vm.sp - 1) (f a)
    done vm.next

/-- `stack[sp++] = o`, where `o` may keep part of what the slot held. -/
def pushWith (f : ObjectT → Except Fault ObjectT) (vm : Vm W) : Except Fault (Ret W) := do
  let old ← vm.stackAt vm.sp
  let o ← f old
  let vm ← vm.stackSet vm.sp o
  done (vm.setSp (vm.sp + 1)).next

/-- `OP_JZ` and `OP_JNZ`: `taken` decides on the popped word. -/
def condJump (taken : BitVec 32 → Bool) (inst : Opcode) (vm : Vm W) : Except Fault (Ret W) :=
  if vm.sp < 1 then raise .stackUnderflow vm
  else if vm.program.size ≤ inst.operand.ui32.toNat then raise .invalidInstructionAccess vm
  else do
    let vm := vm.setSp (vm.sp - 1)
    let o ← vm.stackAt vm.sp
    if taken o.ui32 then done { vm with ip := inst.operand.ui32.toNat } else done vm.next

/-! ## Operations -/

/-- The `i32` or `f32` member of the left operand is overwritten. -/
def word2 (f : BitVec 32 → BitVec 32 → BitVec 32) (a b : ObjectT) : Except Fault ObjectT :=
  .ok (a.setUi32 (f a.ui32 b.ui32))

/-- A comparison or logical opcode stores 0 or 1. -/
def test2 (f : BitVec 32 → BitVec 32 → Bool) (a b : ObjectT) : Except Fault ObjectT :=
  .ok (a.setUi32 (if f a.ui32 b.ui32 then 1 else 0))

def word1 (f : BitVec 32 → BitVec 32) (a : ObjectT) : ObjectT := a.setUi32 (f a.ui32)

/-- `/` and `%` on `int32_t`; undefined when the quotient does not fit. -/
def divWord (f : BitVec 32 → BitVec 32 → BitVec 32) (a b : ObjectT) : Except Fault ObjectT :=
  if a.ui32 = BitVec.intMin 32 ∧ b.ui32 = -1 then .error .undefinedArith
  else .ok (a.setUi32 (f a.ui32 b.ui32))

/-- `<<` and `>>` on `int32_t`; undefined for a count outside `[0, 31]`. -/
def shiftWord (f : BitVec 32 → Nat → BitVec 32) (a b : ObjectT) : Except Fault ObjectT :=
  if 32 ≤ b.ui32.toNat then .error .undefinedArith
  else .ok (a.setUi32 (f a.ui32 b.ui32.toNat))

/-! ## Control -/

/-- `OP_CALL`. -/
def opCall (env : Env W) (inst : Opcode) (vm : Vm W) : Except Fault (Ret W) :=
  if returnStackCapacity ≤ vm.rsp then raise .returnStackOverflow vm
  else if vm.program.size ≤ inst.operand.ui32.toNat then raise .invalidInstructionAccess vm
  else do
    let returnStack ← vm.returnStack.store (.outOfBounds .returnStack) vm.rsp (wordSucc vm.ip)
    let vm := { vm with returnStack, rsp := vm.rsp + 1, ip := inst.operand.ui32.toNat }
    let (frame, frames) ← tvmFrameNext env.frames vm.frames vm.frame
    done { vm with frame, frames }

/-- `OP_RET`. -/
def opRet (vm : Vm W) : Except Fault (Ret W) :=
  if vm.rsp < 1 then raise .returnStackUnderflow vm
  else do
    let vm := { vm with rsp := vm.rsp - 1 }
    let ip ← vm.returnStack.load (.outOfBounds .returnStack) vm.rsp
    let vm := { vm with ip }
    let (frame, frames) ← tvmFramePrev vm.frames vm.frame
    done { vm with frame, frames }

/-! ## Constants and variables -/

/-- `const_table.referances[i]`. -/
def referance (vm : Vm W) (i : Nat) : Except Fault Nat :=
  match vm.program.constTable.referances[i]? with
  | some r => .ok r
  | none => .error (.outOfBounds .referances)

/-- `OP_LOADC`: a four-byte load out of the constant data. -/
def opLoadc (inst : Opcode) (vm : Vm W) : Except Fault (Ret W) :=
  if tvmStackCapacity ≤ vm.sp then raise .stackOverflow vm
  else if vm.program.constTable.referanceCount ≤ inst.operand.ui32.toNat then raise .invalidConstantAccess vm
  else do
    let r ← referance vm inst.operand.ui32.toNat
    let bytes := (vm.program.constTable.data.drop r).take 4
    if bytes.length < 4 then .error (.outOfBounds .constData)
    else pushWith (fun old => .ok (old.setUi32 ((ofLeBytes bytes).setWidth 32))) vm

/-- `OP_ALOADC`. -/
def opAloadc (env : Env W) (inst : Opcode) (vm : Vm W) : Except Fault (Ret W) :=
  if tvmStackCapacity ≤ vm.sp then raise .stackOverflow vm
  else if vm.program.constTable.referanceCount ≤ inst.operand.ui32.toNat then
    raise .invalidConstantAddressAccess vm
  else do
    let r ← referance vm inst.operand.ui32.toNat
    pushWith (fun old => .ok (old.setUi64 (env.constBase + BitVec.ofNat 64 r))) vm

/-- `OP_LOAD`. -/
def opLoad (inst : Opcode) (vm : Vm W) : Except Fault (Ret W) :=
  if tvmStackCapacity ≤ vm.sp then raise .stackOverflow vm
  else if tvmMaxLocalVar ≤ inst.operand.ui32.toNat then raise .invalidLocalVarAccess vm
  else do
    let f ← vm.frames.load vm.frame
    let o ← f.localVars.load (.outOfBounds .localVars) inst.operand.ui32.toNat
    pushWith (fun _ => .ok o) vm

/-- `OP_STORE`. -/
def opStore (inst : Opcode) (vm : Vm W) : Except Fault (Ret W) :=
  if vm.sp ≤ 0 then raise .stackUnderflow vm
  else if tvmMaxLocalVar ≤ inst.operand.ui32.toNat then raise .invalidLocalVarAccess vm
  else do
    let vm := vm.setSp (vm.sp - 1)
    let o ← vm.stackAt vm.sp
    let f ← vm.frames.load vm.frame
    let localVars ← f.localVars.store (.outOfBounds .localVars) inst.operand.ui32.toNat o
    done { vm with frames := vm.frames.set vm.frame { f with localVars } }.next

/-- `OP_GLOAD`. -/
def opGload (inst : Opcode) (vm : Vm W) : Except Fault (Ret W) :=
  if tvmStackCapacity ≤ vm.sp then raise .stackOverflow vm
  else if tvmMaxLocalVar ≤ inst.operand.ui32.toNat then raise .invalidGlobalVarAccess vm
  else do
    let o ← vm.globalVars.load (.outOfBounds .globalVars) inst.operand.ui32.toNat
    pushWith (fun _ => .ok o) vm

/-- `OP_GSTORE`. -/
def opGstore (inst : Opcode) (vm : Vm W) : Except Fault (Ret W) :=
  if vm.sp ≤ 0 then raise .stackUnderflow vm
  else if tvmMaxLocalVar ≤ inst.operand.ui32.toNat then raise .invalidGlobalVarAccess vm
  else do
    let vm := vm.setSp (vm.sp - 1)
    let o ← vm.stackAt vm.sp
    let globalVars ← vm.globalVars.store (.outOfBounds .globalVars) inst.operand.ui32.toNat o
    done { vm with globalVars }.next

/-! ## Heap -/

/-- `OP_HALLOC`. -/
def opHalloc (env : Env W) (vm : Vm W) : Except Fault (Ret W) :=
  if vm.sp < 2 then raise .stackUnderflow vm
  else do
    let size ← vm.stackAt (vm.sp - 2)
    let pointerCount ← vm.stackAt (vm.sp - 1)
    let (addr, heap) ← tgcCreateBlock env.heap vm.heap size.ui32.toNat pointerCount.ui32.toNat
    let vm := { vm with heap }
    let vm ← vm.stackSet (vm.sp - 2) ⟨StackObjType.dataAddress.code, addr⟩
    done (vm.setSp (vm.sp - 1)).next

/-- `stack[sp - 1].ui64` replaced by what `f` loads through it. -/
def loadTop (f : Addr → Except Fault (BitVec 64)) (vm : Vm W) : Except Fault (Ret W) := do
  let o ← vm.stackAt (vm.sp - 1)
  let v ← f o.ui64
  let vm ← vm.stackSet (vm.sp - 1) (o.setUi64 v)
  done vm.next

/-- `OP_DEREF`. -/
def opDeref (env : Env W) (vm : Vm W) : Except Fault (Ret W) :=
  if vm.sp ≤ 0 then raise .stackUnderflow vm
  else loadTop (vm.heap.loadWord (vm.constRegion env) 8) vm

/-- `OP_DEREFB`: a `char`, an `int32_t` or a pointer; the first two are sign-extended. -/
def opDerefb (env : Env W) (inst : Opcode) (vm : Vm W) : Except Fault (Ret W) :=
  if vm.sp ≤ 0 then raise .stackUnderflow vm
  else if inst.operand.ui32.toInt < 1 ∨ 8 < inst.operand.ui32.toNat then raise .invalidByteSize vm
  else if inst.operand.ui32.toNat = 1 then
    loadTop (fun a => (vm.heap.loadWord (vm.constRegion env) 1 a).map fun v => (v.setWidth 8).signExtend 64) vm
  else if inst.operand.ui32.toNat = 4 then
    loadTop (fun a => (vm.heap.loadWord (vm.constRegion env) 4 a).map fun v => (v.setWidth 32).signExtend 64) vm
  else if inst.operand.ui32.toNat = 8 then loadTop (vm.heap.loadWord (vm.constRegion env) 8) vm
  else raise .invalidByteSize vm

/-- The common part of `OP_HSET` and `OP_HSETOF`: read the descriptor, check the offset, and
store the low `width` bytes of `stack[sp - 4]`. -/
def heapSet (env : Env W) (width offset : BitVec 32) (vm : Vm W) : Except Fault (Ret W) := do
  let addr ← vm.stackAt (vm.sp - 3)
  let size ← vm.heap.loadWord (vm.constRegion env) 8 (addr.ui64 + 16)
  if size.toNat ≤ offset.toNat then raise .invalidArrayIndex vm
  else if width.toNat = 4 ∨ width.toNat = 1 ∨ width.toNat = 8 then do
    let value ← vm.heap.loadWord (vm.constRegion env) 8 addr.ui64
    let o ← vm.stackAt (vm.sp - 4)
    let heap ← vm.heap.storeValue value offset.toNat (leBytes width.toNat o.ui64)
    done ({ vm with heap }.setSp (vm.sp - 4)).next
  else raise .invalidPrimitiveSize vm

/-- `OP_HSET`: the product is taken in 32 bits. -/
def opHset (env : Env W) (vm : Vm W) : Except Fault (Ret W) :=
  if vm.sp < 4 then raise .stackUnderflow vm
  else do
    let byteSize ← vm.stackAt (vm.sp - 1)
    let index ← vm.stackAt (vm.sp - 2)
    heapSet env byteSize.ui32 (index.ui32 * byteSize.ui32) vm

/-- `OP_HSETOF`. -/
def opHsetof (env : Env W) (vm : Vm W) : Except Fault (Ret W) :=
  if vm.sp < 4 then raise .stackUnderflow vm
  else do
    let typeSize ← vm.stackAt (vm.sp - 1)
    let offset ← vm.stackAt (vm.sp - 2)
    heapSet env typeSize.ui32 offset.ui32 vm

/-! ## Output and native calls -/

/-- `OP_PUTS`. -/
def opPuts (env : Env W) (vm : Vm W) : Except Fault (Ret W) :=
  if vm.sp < 1 then raise .stackUnderflow vm
  else do
    let vm := vm.setSp (vm.sp - 1)
    let o ← vm.stackAt vm.sp
    let s ← vm.heap.readCStr (vm.constRegion env) (vm.heap.extent (vm.constRegion env) + 1) o.ui64
    done { vm with out := vm.out ++ s }.next

/-- `OP_PUTC`. -/
def opPutc (vm : Vm W) : Except Fault (Ret W) :=
  if vm.sp < 1 then raise .stackUnderflow vm
  else do
    let vm := vm.setSp (vm.sp - 1)
    let o ← vm.stackAt vm.sp
    done { vm with out := vm.out ++ [o.ui8] }.next

/-- The loop that fills `vargs`: `todo` more arguments from `vargs[i]` and `stack[at]` on. -/
def gatherArgs (vm : Vm W) : Nat → Nat → Nat → Except Fault (List (BitVec 64))
  | 0, _, _ => .ok []
  | todo + 1, i, slot =>
    if 64 ≤ i then .error (.outOfBounds .vargs)
    else do
      let o ← vm.stackAt slot
      let rest ← gatherArgs vm todo (i + 1) (slot + 1)
      return o.ui64 :: rest

/-- `OP_NATIVE`. The table entry is read before the id is checked. -/
def opNative (env : Env W) (inst : Opcode) (vm : Vm W) : Except Fault (Ret W) := do
  let nativeFunc ← vm.program.cfun inst.operand.ui32.toNat
  let m ← vm.program.metadata.modules.load (.outOfBounds .modules) 0
  if vm.sp < nativeFunc.acount then raise .stackUnderflow vm
  else if tvmStackCapacity ≤ vm.sp then raise .stackOverflow vm
  else if m.cfunCount ≤ inst.operand.ui32.toNat then raise .invalidNativeFunctionAccess vm
  else do
    let vargs ← gatherArgs vm nativeFunc.acount 0 (vm.sp - nativeFunc.acount)
    let vm := vm.setSp (vm.sp - nativeFunc.acount)
    if nativeFunc.rtype = CType.void.code then do
      let (vm, _) ← tciNativeCall env.native vm inst.operand.ui32.toNat none vargs
      done vm.next
    else do
      let (vm, ret) ← tciNativeCall env.native vm inst.operand.ui32.toNat (some 0) vargs
      pushWith (fun old => .ok (old.setUi32 (ret.setWidth 32))) vm

/-! ## The switch -/

/-- The switch of `tvm_exec_opcode`, on an opcode of the enumeration. -/
def tvmExecOp (env : Env W) (op : OpType) (inst : Opcode) (vm : Vm W) : Except Fault (Ret W) :=
  match op with
  | .nop => done vm.next
  | .push =>
    if tvmStackCapacity ≤ vm.sp then raise .stackOverflow vm
    else pushWith (fun _ => .ok inst.operand) vm
  | .pop =>
    if vm.sp ≤ 0 then raise .stackUnderflow vm
    else done (vm.setSp (vm.sp - 1)).next
  | .add => arithOp (word2 (· + ·)) vm
  | .sub => arithOp (word2 (· - ·)) vm
  | .mult => arithOp (word2 (· * ·)) vm
  | .div => divOp (divWord BitVec.sdiv) vm
  | .mod => divOp (divWord BitVec.srem) vm
  | .dup =>
    if vm.sp < 1 then raise .stackUnderflow vm
    else if tvmStackCapacity ≤ vm.sp then raise .stackOverflow vm
    else do
      let a ← vm.stackAt (vm.sp - 1)
      pushWith (fun old => .ok (old.setUi32 a.ui32)) vm
  | .cln =>
    if vm.sp ≤ inst.operand.ui32.toNat then raise .invalidStackAccess vm
    else if vm.sp < 1 then raise .stackUnderflow vm
    else if tvmStackCapacity ≤ vm.sp then raise .stackOverflow vm
    else do
      let a ← vm.stackAt (vm.sp - inst.operand.ui32.toNat - 1)
      pushWith (fun _ => .ok a) vm
  | .swap =>
    if vm.sp ≤ inst.operand.ui32.toNat then raise .invalidStackAccess vm
    else if vm.sp < 2 then raise .stackUnderflow vm
    else do
      let temp ← vm.stackAt (vm.sp - 1)
      let a ← vm.stackAt (vm.sp - inst.operand.ui32.toNat - 1)
      let vm ← vm.stackSet (vm.sp - 1) a
      let vm ← vm.stackSet (vm.sp - inst.operand.ui32.toNat - 1) temp
      done vm.next
  | .addf => arithOp (word2 env.f32.add) vm
  | .subf => arithOp (word2 env.f32.sub) vm
  | .multf => arithOp (word2 env.f32.mul) vm
  | .divf => arithOp (word2 env.f32.div) vm
  | .inc => unaryOp (word1 (· + 1)) vm
  | .incf => unaryOp (word1 (env.f32.add · f32One)) vm
  | .dec => unaryOp (word1 (· - 1)) vm
  | .decf => unaryOp (word1 (env.f32.sub · f32One)) vm
  | .jmp =>
    if vm.program.size ≤ inst.operand.ui32.toNat then raise .invalidInstructionAccess vm
    else done { vm with ip := inst.operand.ui32.toNat }
  | .jz => condJump (· == 0) inst vm
  | .jnz => condJump (· != 0) inst vm
  | .call => opCall env inst vm
  | .ret => opRet vm
  | .ci2f => unaryOp (word1 env.f32.ofI32) vm
  | .ci2u => unaryOp (word1 id) vm
  | .cf2i => unaryOp (word1 env.f32.toI32) vm
  | .cf2u => unaryOp (word1 env.f32.toU32) vm
  | .cu2i => unaryOp (word1 id) vm
  | .cu2f => unaryOp (word1 env.f32.ofU32) vm
  | .gt => arithOp (test2 fun a b => b.slt a) vm
  | .gtf => arithOp (test2 fun a b => env.f32.lt b a) vm
  | .lt => arithOp (test2 fun a b => a.slt b) vm
  | .ltf => arithOp (test2 fun a b => env.f32.le a b) vm
  | .eq => arithOp (test2 (· == ·)) vm
  | .eqf => arithOp (test2 env.f32.eq) vm
  | .ge => arithOp (test2 fun a b => b.sle a) vm
  | .gef => arithOp (test2 fun a b => env.f32.le b a) vm
  | .le => arithOp (test2 fun a b => a.sle b) vm
  | .lef => arithOp (test2 fun a b => env.f32.le a b) vm
  | .and => arithOp (test2 fun a b => a != 0 && b != 0) vm
  | .or => arithOp (test2 fun a b => a != 0 || b != 0) vm
  | .not => unaryOp (word1 fun a => if a = 0 then 1 else 0) vm
  | .band => binaryOp (word2 (· &&& ·)) vm
  | .bor => binaryOp (word2 (· ||| ·)) vm
  | .bnot => unaryOp (word1 (~~~ ·)) vm
  | .lshft => binaryOp (shiftWord (· <<< ·)) vm
  | .rshft => binaryOp (shiftWord BitVec.sshiftRight) vm
  | .loadc => opLoadc inst vm
  | .aloadc => opAloadc env inst vm
  | .load => opLoad inst vm
  | .store => opStore inst vm
  | .gload => opGload inst vm
  | .gstore => opGstore inst vm
  | .halloc => opHalloc env vm
  | .deref => opDeref env vm
  | .derefb => opDerefb env inst vm
  | .hset => opHset env vm
  | .hsetof => opHsetof env vm
  | .puts => opPuts env vm
  | .putc => opPutc vm
  | .native => opNative env inst vm
  | .halt => done { vm with halted := true }.next

/-- `tvm_exec_opcode` after the fetch of `inst`. -/
def tvmExecInst (env : Env W) (inst : Opcode) (vm : Vm W) : Except Fault (Ret W) :=
  match OpType.ofNat? inst.type.toNat with
  | some op => tvmExecOp env op inst vm
  | none => raise .invalidInstruction vm

/-- The switch on an instruction of the opcode `op`. -/
theorem tvmExecInst_code (env : Env W) (op : OpType) (operand : ObjectT) (vm : Vm W) :
    tvmExecInst env ⟨op.code, operand⟩ vm = tvmExecOp env op ⟨op.code, operand⟩ vm := by
  unfold tvmExecInst
  rw [show OpType.ofNat? (Opcode.mk op.code operand).type.toNat = some op from OpType.ofNat?_code op]

/-- `tvm_exec_opcode`. -/
def tvmExecOpcode (env : Env W) (vm : Vm W) : Except Fault (Ret W) := do
  let inst ← vm.program.fetch vm.ip
  tvmExecInst env inst vm

end TileVm
