/-
What `OP_NATIVE` accesses. The id of the function and the number of its arguments come from the
program file, so the accesses to the function table and to the argument buffer are logged: the table
is read before the id is checked, and nothing bounds the number of arguments by the buffer.
-/
import TileVm.Lib.Logged
import TileVm.Vm.Exec

namespace TileVm

variable {W : Type}

/-! ## The instruction with a log -/

/-- An access to `modules[0].cfuns` or to `vargs`. -/
inductive NativeAccess where
  | cfuns (i : Nat)
  | vargs (i : Nat)
deriving DecidableEq, Repr

abbrev NativeM (α : Type) := Logged NativeAccess Fault α

/-- `modules[0].cfuns[id]`. -/
def cfunLogged (p : TvmProgram) (id : Nat) : NativeM TvmProgramCfun := do
  Logged.tell (.cfuns id)
  Logged.lift (p.cfun id)

/-- The loop that fills `vargs`. -/
def gatherArgsLogged (vm : Vm W) : Nat → Nat → Nat → NativeM (List (BitVec 64))
  | 0, _, _ => pure []
  | todo + 1, i, slot => do
    Logged.tell (.vargs i)
    if 64 ≤ i then Logged.lift (.error (.outOfBounds .vargs))
    else do
      let o ← Logged.lift (vm.stackAt slot)
      let rest ← gatherArgsLogged vm todo (i + 1) (slot + 1)
      pure (o.ui64 :: rest)

/-- `tci_native_call`, which looks the name of the function up in the table again. -/
def tciNativeCallLogged (lib : NativeLib W) (vm : Vm W) (id : Nat) (rvalue : Option (BitVec 64))
    (avalues : List (BitVec 64)) : NativeM (Vm W × BitVec 64) := do
  Logged.tell (.cfuns id)
  Logged.lift (tciNativeCall lib vm id rvalue avalues)

/-- `OP_NATIVE`. -/
def opNativeLogged (env : Env W) (inst : Opcode) (vm : Vm W) : NativeM (Ret W) := do
  let nativeFunc ← cfunLogged vm.program inst.operand.ui32.toNat
  let m ← Logged.lift (vm.program.metadata.modules.load (.outOfBounds .modules) 0)
  if vm.sp < nativeFunc.acount then Logged.lift (raise .stackUnderflow vm)
  else if tvmStackCapacity ≤ vm.sp then Logged.lift (raise .stackOverflow vm)
  else if m.cfunCount ≤ inst.operand.ui32.toNat then Logged.lift (raise .invalidNativeFunctionAccess vm)
  else do
    let vargs ← gatherArgsLogged vm nativeFunc.acount 0 (vm.sp - nativeFunc.acount)
    let vm := vm.setSp (vm.sp - nativeFunc.acount)
    if nativeFunc.rtype = CType.void.code then do
      let (vm, _) ← tciNativeCallLogged env.native vm inst.operand.ui32.toNat none vargs
      Logged.lift (done vm.next)
    else do
      let (vm, ret) ← tciNativeCallLogged env.native vm inst.operand.ui32.toNat (some 0) vargs
      Logged.lift (pushWith (fun old => .ok (old.setUi32 (ret.setWidth 32))) vm)

theorem cfunLogged_result (p : TvmProgram) (id : Nat) : (cfunLogged p id).result = p.cfun id := rfl

theorem gatherArgsLogged_result (vm : Vm W) : ∀ todo i slot : Nat,
    (gatherArgsLogged vm todo i slot).result = gatherArgs vm todo i slot
  | 0, _, _ => rfl
  | todo + 1, i, slot => by
    unfold gatherArgsLogged gatherArgs
    simp only [Logged.result_bind, Logged.result_tell, Logged.result_ite, Logged.result_lift, Logged.result_pure,
      gatherArgsLogged_result vm todo]
    rfl

/-- Without its log it is the instruction. -/
theorem opNativeLogged_result (env : Env W) (inst : Opcode) (vm : Vm W) :
    (opNativeLogged env inst vm).result = opNative env inst vm := by
  unfold opNativeLogged opNative
  simp only [Logged.result_bind, Logged.result_ite, Logged.result_lift, cfunLogged_result, gatherArgsLogged_result]
  rfl

/-! ## Accesses -/

/-- `modules[0]`. -/
def module0 (p : TvmProgram) : TvmProgramMetadataModule := p.metadata.modules.cell ⟨0, by decide⟩

theorem load_module0 (p : TvmProgram) : p.metadata.modules.load (Fault.outOfBounds .modules) 0 = .ok (module0 p) :=
  CArray.load_ok.2 (CArray.get?_of_lt _ (by decide))

theorem cfun_ok {p : TvmProgram} {id : Nat} {f : TvmProgramCfun} :
    p.cfun id = .ok f ↔ (module0 p).cfuns.get? id = some f := by
  unfold TvmProgram.cfun
  rw [Except.bind_of_ok (load_module0 p)]
  exact CArray.load_ok

/-- What is to hold of an access: the entry is declared, the cell is in the buffer. -/
def NativeAccess.InBounds (p : TvmProgram) : NativeAccess → Prop
  | .cfuns i => i < (module0 p).cfunCount
  | .vargs i => i < 64

/-- The instruction checks what the file gives: every access is in bounds, and an id that is not declared is refused. -/
structure NativeChecked (env : Env W) (inst : Opcode) (vm : Vm W) : Prop where
  accesses : ∀ a ∈ (opNativeLogged env inst vm).log, a.InBounds vm.program
  undeclared : (module0 vm.program).cfunCount ≤ inst.operand.ui32.toNat →
    tvmExecOp env .native inst vm = .ok (.invalidNativeFunctionAccess, vm)

/-- The id is declared, and a call that passes the guards on the stack has at most 64 arguments. -/
def CallsDeclared (inst : Opcode) (vm : Vm W) : Prop :=
  inst.operand.ui32.toNat < (module0 vm.program).cfunCount ∧
    ∀ f, (module0 vm.program).cfuns.get? inst.operand.ui32.toNat = some f →
      vm.sp < f.acount ∨ tvmStackCapacity ≤ vm.sp ∨ f.acount ≤ 64

/-- The loop stays in the buffer when the arguments fit. -/
theorem gatherArgsLogged_all (vm : Vm W) : ∀ todo i slot : Nat, i + todo ≤ 64 →
    (gatherArgsLogged vm todo i slot).All (·.InBounds vm.program)
  | 0, _, _, _ => .pure _
  | todo + 1, i, slot, h => by
    unfold gatherArgsLogged
    refine .bind (.tell (show i < 64 by omega)) fun _ _ => .ite (fun _ => .lift _) fun _ => ?_
    refine .bind (.lift _) fun o _ => .bind ?_ fun _ _ => .pure _
    exact gatherArgsLogged_all vm todo (i + 1) (slot + 1) (by omega)

/-- The loop reaches `vargs[64]` when they do not. -/
theorem gatherArgsLogged_overrun (vm : Vm W) : ∀ todo i slot : Nat, i ≤ 64 → 64 < i + todo →
    slot + todo ≤ tvmStackCapacity → .vargs 64 ∈ (gatherArgsLogged vm todo i slot).log
  | 0, _, _, hi, h, _ => by omega
  | todo + 1, i, slot, hi, h, hslot => by
    unfold gatherArgsLogged
    rw [Logged.mem_tell_bind]
    rcases Nat.lt_or_eq_of_le hi with hlt | rfl
    · right
      have hread : (Logged.lift (vm.stackAt slot) : NativeM ObjectT).result = .ok _ :=
        CArray.load_ok.2 (CArray.get?_of_lt vm.stack (show slot < tvmStackCapacity by omega))
      have hrest := gatherArgsLogged_overrun vm todo (i + 1) (slot + 1) (by omega) (by omega) (by omega)
      rw [if_neg (by omega)]
      refine Logged.mem_bind_of_ok hread ?_
      cases hres : (gatherArgsLogged vm todo (i + 1) (slot + 1)).result with
      | error e => rwa [Logged.log_bind_of_error hres]
      | ok vs =>
        rw [Logged.log_bind_of_ok hres]
        exact List.mem_append_left _ hrest
    · exact .inl rfl

theorem tciNativeCallLogged_all {lib : NativeLib W} {vm vm' : Vm W} {id : Nat} {rvalue : Option (BitVec 64)}
    {avalues : List (BitVec 64)} (h : id < (module0 vm.program).cfunCount) :
    (tciNativeCallLogged lib vm' id rvalue avalues).All (·.InBounds vm.program) :=
  .bind (.tell h) fun _ _ => .lift _

theorem nativeChecked_of_calls {env : Env W} {inst : Opcode} {vm : Vm W} (h : CallsDeclared inst vm) :
    NativeChecked env inst vm := by
  obtain ⟨hid, hargs⟩ := h
  constructor
  · have hentry : (cfunLogged vm.program inst.operand.ui32.toNat).All (·.InBounds vm.program) :=
      .bind (.tell hid) fun _ _ => .lift _
    show (opNativeLogged env inst vm).All (·.InBounds vm.program)
    refine .bind hentry fun f hf => .bind (.lift _) fun m _ => ?_
    refine .ite (fun _ => .lift _) fun hunder => .ite (fun _ => .lift _) fun hover => .ite (fun _ => .lift _) fun _ => ?_
    have hfit : f.acount ≤ 64 := by
      rcases hargs f (cfun_ok.1 hf) with hlt | hle | hfit
      · exact absurd hlt hunder
      · exact absurd hle hover
      · exact hfit
    refine .bind (gatherArgsLogged_all vm _ _ _ (by omega)) fun vargs _ => .ite (fun _ => ?_) fun _ => ?_
    · exact .bind (tciNativeCallLogged_all hid) fun _ _ => .lift _
    · exact .bind (tciNativeCallLogged_all hid) fun _ _ => .lift _
  · intro hge
    omega

theorem calls_of_nativeChecked {env : Env W} {inst : Opcode} {vm : Vm W} (h : NativeChecked env inst vm) :
    CallsDeclared inst vm := by
  have hentry : (.cfuns inst.operand.ui32.toNat : NativeAccess) ∈ (cfunLogged vm.program inst.operand.ui32.toNat).log :=
    Logged.mem_tell_bind.2 (.inl rfl)
  have hid : inst.operand.ui32.toNat < (module0 vm.program).cfunCount := by
    refine h.accesses (.cfuns inst.operand.ui32.toNat) ?_
    unfold opNativeLogged
    cases hres : (cfunLogged vm.program inst.operand.ui32.toNat).result with
    | error e => rwa [Logged.log_bind_of_error hres]
    | ok f =>
      rw [Logged.log_bind_of_ok hres]
      exact List.mem_append_left _ hentry
  refine ⟨hid, fun f hf => ?_⟩
  by_contra hno
  obtain ⟨hunder, hover, hmany⟩ : f.acount ≤ vm.sp ∧ vm.sp < tvmStackCapacity ∧ 64 < f.acount := by
    simpa only [not_or, Nat.not_lt, Nat.not_le] using hno
  have hoverrun : (.vargs 64 : NativeAccess) ∈ (opNativeLogged env inst vm).log := by
    unfold opNativeLogged
    have hread : (cfunLogged vm.program inst.operand.ui32.toNat).result = .ok f := cfun_ok.2 hf
    have hmodule : (Logged.lift (vm.program.metadata.modules.load (.outOfBounds .modules) 0) : NativeM _).result
      = .ok (module0 vm.program) := load_module0 vm.program
    refine Logged.mem_bind_of_ok hread (Logged.mem_bind_of_ok hmodule ?_)
    rw [if_neg (by omega), if_neg (by omega), if_neg (by omega)]
    have hloop := gatherArgsLogged_overrun vm f.acount 0 (vm.sp - f.acount) (by omega) (by omega) (by omega)
    cases hres : (gatherArgsLogged vm f.acount 0 (vm.sp - f.acount)).result with
    | error e => rwa [Logged.log_bind_of_error hres]
    | ok vs =>
      rw [Logged.log_bind_of_ok hres]
      exact List.mem_append_left _ hloop
  exact absurd (h.accesses _ hoverrun) (Nat.lt_irrefl 64)

/-- For every metadata, state and operand: the instruction reads declared functions and cells of the buffer only, and
refuses every other id, if and only if the id is declared and a call that passes the guards on the stack has at most
64 arguments. -/
theorem native_checked_iff (env : Env W) (inst : Opcode) (vm : Vm W) :
    NativeChecked env inst vm ↔ CallsDeclared inst vm :=
  ⟨calls_of_nativeChecked, nativeChecked_of_calls⟩

/-- `native 600` in a program without native functions, on an empty stack: `cfuns[600]` is read, and nothing is
refused. -/
theorem native_reads_undeclared : ∃ vm : Vm Unit, tvmInit (.bare [64]) .zero () = .ok vm ∧
    tvmExecOp (.bare [64]) .native ⟨OpType.native.code, ⟨StackObjType.number.code, 600⟩⟩ vm =
      .error (.outOfBounds .cfuns) ∧
    ¬ NativeChecked (.bare [64]) ⟨OpType.native.code, ⟨StackObjType.number.code, 600⟩⟩ vm := by
  refine ⟨_, rfl, rfl, fun h => ?_⟩
  have hread := h.accesses (.cfuns 600) (List.mem_cons_self ..)
  exact absurd hread (show ¬ 600 < 0 by decide)

end TileVm
