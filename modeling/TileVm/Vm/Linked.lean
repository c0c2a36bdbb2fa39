/-
The machine linked with `tci.c`: `OP_NATIVE` calls `tci_native_call` on the process's `tci_instance`.
Its runs are those of the machine with the library that `tci.c` prepared, except that a crash of one
may be another crash, or an `exit(1)` of `tci.c`, of the other.
-/
import TileVm.Lib.Mirror
import TileVm.Vm.Run
import TileVm.Vm.Tci

namespace TileVm

open Except (Mirrors)

variable {W : Type}

/-! ## The linked machine -/

/-- Why the linked `tvm_run` does not come to its end. -/
inductive LinkedStop where
  | tci (e : TciStop)
  | exit (e : TvmException)
deriving DecidableEq, Repr

section Linked

variable (env : Env W) (pf : Platform W) (t : Tci)

/-- `OP_NATIVE`, with `tci_native_call` of `tci.c`. -/
def opNativeLinked (inst : Opcode) (vm : Vm W) : Except TciStop (Ret W) := do
  let nativeFunc ← (vm.program.cfun inst.operand.ui32.toNat).mapError .fault
  let m ← (vm.program.metadata.modules.load (Fault.outOfBounds .modules) 0).mapError .fault
  if vm.sp < nativeFunc.acount then (raise .stackUnderflow vm).mapError .fault
  else if tvmStackCapacity ≤ vm.sp then (raise .stackOverflow vm).mapError .fault
  else if m.cfunCount ≤ inst.operand.ui32.toNat then (raise .invalidNativeFunctionAccess vm).mapError .fault
  else do
    let vargs ← (gatherArgs vm nativeFunc.acount 0 (vm.sp - nativeFunc.acount)).mapError .fault
    let vm := vm.setSp (vm.sp - nativeFunc.acount)
    if nativeFunc.rtype = CType.void.code then do
      let (vm, _) ← t.nativeCall pf vm inst.operand.ui32.toNat none vargs
      (done vm.next).mapError .fault
    else do
      let (vm, ret) ← t.nativeCall pf vm inst.operand.ui32.toNat (some 0) vargs
      (pushWith (fun old => .ok (old.setUi32 (ret.setWidth 32))) vm).mapError .fault

/-- `tvm_exec_opcode`. Its other instructions do not come to `tci.c`. -/
def tvmExecOpcodeLinked (vm : Vm W) : Except TciStop (Ret W) := do
  let inst ← (vm.program.fetch vm.ip).mapError .fault
  match OpType.ofNat? inst.type.toNat with
  | some .native => opNativeLinked pf t inst vm
  | some op => (tvmExecOp env op inst vm).mapError .fault
  | none => (raise .invalidInstruction vm).mapError .fault

/-- The body of the loop of `tvm_run`. -/
def tvmRunBodyLinked (vm : Vm W) : Except (Stop LinkedStop) (Vm W) :=
  match tvmExecOpcodeLinked env pf t vm with
  | .error e => .error (.fault (.tci e))
  | .ok (e, vm') => if e ≠ .ok then .error (.fault (.exit e)) else .ok vm'

/-- `tvm_run`. -/
def tvmRunLinked (fuel : Nat) (vm : Vm W) : Except (Stop LinkedStop) (Vm W) := do
  let vm ← Loop.run tvmRunCond (tvmRunBodyLinked env pf t) fuel vm
  let heap := { vm.heap with blocks := [], base := 0, cap := 0 }
  match tvmFrameFree vm.frames vm.frame with
  | .error f => .error (.fault (.tci (.fault f)))
  | .ok frames =>
    let out := vm.out ++ cstr "Program halted " ++ 27 :: cstr "[0;32m" ++ cstr "succesfully...\n" ++ clrEnd
    return { vm with heap, frames, out }

end Linked

/-! ## Steps -/

/-- The library of `t` was prepared for `p`; a program without native functions needs none. -/
def Tci.Serves (pf : Platform W) (t : Tci) (p : TvmProgram) : Prop :=
  (∃ m, Tci.Prepared pf p (module0 p).cfunCount t m) ∨ (module0 p).cfunCount = 0

/-- The environment of the machine, with the library of `t`. -/
abbrev Env.withTci (env : Env W) (pf : Platform W) (t : Tci) : Env W := { env with native := t.nativeLib pf }

section Steps

variable {env : Env W} {pf : Platform W} {t : Tci} {p : TvmProgram} {vm vm' : Vm W} {inst : Opcode}

theorem gatherArgs_length {vs : List (BitVec 64)} {todo i slot : Nat} (h : gatherArgs vm todo i slot = .ok vs) :
    vs.length = todo := by
  induction todo generalizing i slot vs with
  | zero =>
    cases h
    rfl
  | succ todo ih =>
    unfold gatherArgs at h
    split at h
    · cases h
    · obtain ⟨o, -, h⟩ := Except.bind_ok h
      obtain ⟨rest, hrest, h⟩ := Except.bind_ok h
      cases h
      exact congrArg Nat.succ (ih hrest)

theorem nativeCall_linked (vm : Vm W) (hs : t.Serves pf p) (hvm : vm.program = p) {id : Nat} (hid : id < (module0 p).cfunCount)
    {f : TvmProgramCfun} (hf : p.cfun id = .ok f) {avalues : List (BitVec 64)} (hlen : avalues.length ≤ f.acount)
    (rvalue : Option (BitVec 64)) : Mirrors (fun _ _ => True) (t.nativeCall pf vm id rvalue avalues)
      (tciNativeCall (t.nativeLib pf) vm id rvalue avalues) := by
  rcases hs with ⟨m, hprep⟩ | hnone
  · exact .of_ok_iff fun r => Tci.nativeCall_prepared hprep hvm hid hf hlen r
  · omega

theorem opNative_linked (hs : t.Serves pf p) (hvm : vm.program = p) :
    Mirrors (fun _ _ => True) (opNativeLinked pf t inst vm) (opNative (env.withTci pf t) inst vm) := by
  have lift {α : Type} (x : Except Fault α) : Mirrors (fun _ _ => True) (x.mapError TciStop.fault) x :=
    .mapError_left fun _ => trivial
  unfold opNativeLinked opNative
  rw [hvm]
  refine (lift _).bind fun f hf => (lift _).bind fun m hm => ?_
  rw [load_module0] at hm
  cases hm
  refine .ite (fun _ => lift _) fun _ => .ite (fun _ => lift _) fun _ => .ite (fun _ => lift _) fun hid => ?_
  refine (lift _).bind fun vargs hvargs => ?_
  have hcall := nativeCall_linked (vm.setSp (vm.sp - f.acount)) hs hvm (Nat.lt_of_not_le hid) hf
    (Nat.le_of_eq (gatherArgs_length hvargs))
  exact .ite (fun _ => (hcall none).bind fun _ _ => lift _) fun _ => (hcall (some 0)).bind fun _ _ => lift _

/-- The library is used by `OP_NATIVE` only. -/
theorem tvmExecOp_withTci {op : OpType} (h : op ≠ .native) :
    tvmExecOp (env.withTci pf t) op inst vm = tvmExecOp env op inst vm := by
  cases op with
  | native => exact absurd rfl h
  | _ => rfl

theorem exec_linked (env : Env W) (hs : t.Serves pf p) (hvm : vm.program = p) :
    Mirrors (fun _ _ => True) (tvmExecOpcodeLinked env pf t vm) (tvmExecOpcode (env.withTci pf t) vm) := by
  have lift {α : Type} (x : Except Fault α) : Mirrors (fun _ _ => True) (x.mapError TciStop.fault) x :=
    .mapError_left fun _ => trivial
  unfold tvmExecOpcodeLinked tvmExecOpcode
  refine (lift _).bind fun inst hinst => ?_
  unfold tvmExecInst
  cases OpType.ofNat? inst.type.toNat with
  | none => exact lift _
  | some op =>
    by_cases hop : op = .native
    · subst hop
      exact opNative_linked hs hvm
    · dsimp only
      rw [tvmExecOp_withTci hop]
      cases op with
      | native => exact absurd rfl hop
      | _ => exact lift _

end Steps

/-! ## Runs -/

/-- Exceptions are the same; a crash is one of the other side, or an `exit` of `tci.c`. -/
inductive StopsAlike : LinkedStop → RunStop → Prop where
  | exit (e : TvmException) : StopsAlike (.exit e) (.exit e)
  | fault (e : TciStop) (f : Fault) : StopsAlike (.tci e) (.fault f)

section Runs

variable {env : Env W} {pf : Platform W} {t : Tci} {p : TvmProgram} {vm vm' : Vm W}

theorem body_linked (hs : t.Serves pf p) (hvm : vm.program = p) : Mirrors (Stop.Mirrors StopsAlike)
    (tvmRunBodyLinked env pf t vm) (tvmRunBody (env.withTci pf t) vm) := by
  have hexec := exec_linked env hs hvm
  unfold tvmRunBodyLinked tvmRunBody
  revert hexec
  generalize tvmExecOpcodeLinked env pf t vm = x
  generalize tvmExecOpcode (env.withTci pf t) vm = y
  intro hexec
  cases hexec with
  | ok r => exact .ite (fun _ => .error (.fault (.exit r.1))) fun _ => .ok r.2
  | error => exact .error (.fault (.fault _ _))

theorem runBody_program (hvm : vm.program = p) (h : tvmRunBody env vm = .ok vm') : vm'.program = p := by
  obtain ⟨_, _, _, _, heff⟩ := tvmExecOpcode_effect (tvmRunBody_ok h)
  exact heff.program.trans hvm

/-- Frames, output and heap behind the loop. -/
theorem run_linked (env : Env W) (hs : t.Serves pf p) (hvm : vm.program = p) (fuel : Nat) : Mirrors (Stop.Mirrors StopsAlike)
    (tvmRunLinked env pf t fuel vm) (tvmRun (env.withTci pf t) fuel vm) := by
  have hloop : Mirrors (Stop.Mirrors StopsAlike) (Loop.run tvmRunCond (tvmRunBodyLinked env pf t) fuel vm)
      (Loop.run tvmRunCond (tvmRunBody (env.withTci pf t)) fuel vm) :=
    Loop.run_mirrors (fun vm => vm.program = p) (fun vm hvm _ => body_linked hs hvm)
      (fun vm vm' hvm _ h => runBody_program hvm h) fuel vm hvm
  unfold tvmRunLinked tvmRun
  refine hloop.bind fun w _ => ?_
  dsimp only
  cases tvmFrameFree w.frames w.frame with
  | error f => exact .error (.fault (.fault _ f))
  | ok frames => exact .ok _

end Runs

end TileVm
