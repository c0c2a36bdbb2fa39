/-
`tvm_run`, and where it fetches. The loop lets `ip = size` pass, so a run stays inside the program
exactly when no instruction falls off its end: none but a taken jump, a call, a return or a halt is
executed at the last index, and no return pops the address behind it.
-/
import TileVm.Lib.Loop
import TileVm.Vm.Safety

namespace TileVm

variable {W : Type} {al : FrameAllocator} {op : OpType} {inst : Opcode} {vm vm' : Vm W}

/-! ## The loop -/

/-- Why `tvm_run` does not come to its end: a fault, or `exit(1)` on an exception. -/
inductive RunStop where
  | fault (f : Fault)
  | exit (e : TvmException)

/-- `!vm->halted && vm->ip <= vm->program.size`. -/
def tvmRunCond (vm : Vm W) : Bool := !vm.halted && decide (vm.ip ≤ vm.program.size)

/-- The body of the loop of `tvm_run`. The counter it keeps for the garbage collector has no effect. -/
def tvmRunBody (env : Env W) (vm : Vm W) : Except (Stop RunStop) (Vm W) :=
  match tvmExecOpcode env vm with
  | .error f => .error (.fault (.fault f))
  | .ok (e, vm') => if e ≠ .ok then .error (.fault (.exit e)) else .ok vm'

/-- `tvm_run`: the loop; then the descriptors and the current frame are freed. -/
def tvmRun (env : Env W) (fuel : Nat) (vm : Vm W) : Except (Stop RunStop) (Vm W) := do
  let vm ← Loop.run tvmRunCond (tvmRunBody env) fuel vm
  let heap := { vm.heap with blocks := [], base := 0, cap := 0 }
  match tvmFrameFree vm.frames vm.frame with
  | .error f => .error (.fault (.fault f))
  | .ok frames =>
    let out := vm.out ++ cstr "Program halted " ++ 27 :: cstr "[0;32m" ++ cstr "succesfully...\n" ++ clrEnd
    return { vm with heap, frames, out }

theorem tvmRunBody_ok {env : Env W} (h : tvmRunBody env vm = .ok vm') : tvmExecOpcode env vm = .ok (.ok, vm') := by
  unfold tvmRunBody at h
  split at h
  · cases h
  · rename_i e vm1 hexec
    split at h
    · cases h
    · rename_i he
      cases h
      rw [hexec, Decidable.not_not.1 he]

theorem tvmRunBody_of_exec {env : Env W} (h : tvmExecOpcode env vm = .ok (.ok, vm')) : tvmRunBody env vm = .ok vm' := by
  unfold tvmRunBody
  rw [h]
  rfl

/-! ## Where a step goes -/

namespace Effect

theorem ip_of_falls (h : Effect al op inst vm vm') (hf : fallsThrough op vm = true) : vm'.ip = wordSucc vm.ip := by
  cases h with
  | next _ same => exact congrArg wordSucc same.ip
  | store _ same => exact congrArg wordSucc same.ip
  | jump _ falls => rw [hf] at falls; cases falls
  | call is => subst is; cases hf
  | ret is => subst is; cases hf
  | halt is => subst is; cases hf

theorem ip_of_ret (h : Effect al .ret inst vm vm') : vm.returnStack.get? (vm.rsp - 1) = some vm'.ip := by
  cases h with
  | next falls => cases falls
  | store is => cases is
  | jump is => rcases is with is | is | is <;> cases is
  | call is => cases is
  | ret _ _ saved => exact saved
  | halt is => cases is

/-- A step halts, falls through, jumps inside the program, or returns. -/
theorem ip_cases (h : Effect al op inst vm vm') :
    vm'.halted = true ∨ fallsThrough op vm = true ∨ vm'.ip < vm.program.size ∨ op = .ret := by
  cases h with
  | next falls => exact .inr (.inl falls)
  | store is => subst is; exact .inr (.inl rfl)
  | jump _ _ _ target => exact .inr (.inr (.inl target))
  | call _ _ target => exact .inr (.inr (.inl target))
  | ret is => exact .inr (.inr (.inr is))
  | halt => exact .inl rfl

/-- Saved return addresses stay within the program when the step is taken inside it. -/
theorem saved_le (h : Effect al op inst vm vm') (hip : vm.ip < vm.program.size)
    (hs : ∀ i < vm.rsp, ∀ v, vm.returnStack.get? i = some v → v ≤ vm.program.size) :
    ∀ i < vm'.rsp, ∀ v, vm'.returnStack.get? i = some v → v ≤ vm.program.size := by
  cases h with
  | next _ same => intro i hi v hv; exact hs i (same.rsp ▸ hi) v (same.returnStack ▸ hv)
  | store _ same => intro i hi v hv; exact hs i (same.rsp ▸ hi) v (same.returnStack ▸ hv)
  | jump _ _ same => intro i hi v hv; exact hs i (same.rsp ▸ hi) v (same.returnStack ▸ hv)
  | call _ room =>
    intro i hi v hv
    have hi : i < vm.rsp + 1 := hi
    have hv : (vm.returnStack.put vm.rsp (wordSucc vm.ip)).get? i = some v := hv
    by_cases hir : i = vm.rsp
    · subst hir
      rw [CArray.get?_put_self _ _ room] at hv
      cases hv
      exact Nat.le_trans (Nat.mod_le _ _) hip
    · rw [CArray.get?_put_of_ne _ _ hir] at hv
      exact hs i (by omega) v hv
  | ret =>
    intro i hi v hv
    have hi : i < vm.rsp - 1 := hi
    exact hs i (by omega) v hv
  | halt => exact hs

end Effect

/-! ## Falling off the end -/

/-- The next instruction stands at the last index and continues with the one behind it, or it is a
return that pops the address behind the last index. -/
def fallsOff (vm : Vm W) : Bool :=
  match vm.nextOp with
  | some .ret => vm.returnStack.get? (vm.rsp - 1) == some vm.program.size
  | some op => fallsThrough op vm && vm.ip + 1 == vm.program.size
  | none => false

theorem fallsOff_of_ne {op : OpType} (h : vm.nextOp = some op) (hne : op ≠ .ret) :
    fallsOff vm = (fallsThrough op vm && vm.ip + 1 == vm.program.size) := by
  unfold fallsOff
  rw [h]
  cases op <;> first | rfl | exact absurd rfl hne

theorem fallsOff_of_ret (h : vm.nextOp = some .ret) :
    fallsOff vm = (vm.returnStack.get? (vm.rsp - 1) == some vm.program.size) := by
  unfold fallsOff
  rw [h]

theorem wordSucc_of_lt {n : Nat} (h : n < tvmProgramCapacity) : wordSucc n = n + 1 :=
  Nat.mod_eq_of_lt (Nat.lt_of_lt_of_le (Nat.succ_lt_succ h) (by decide))

/-- A successful step that falls off the end lands behind it. -/
theorem ip_of_fallsOff {env : Env W} (h : tvmExecOpcode env vm = .ok (.ok, vm')) (hf : fallsOff vm = true) :
    vm'.ip = vm.program.size := by
  obtain ⟨inst, op, hinst, hop, heff⟩ := tvmExecOpcode_effect h
  by_cases hret : op = .ret
  · subst hret
    rw [fallsOff_of_ret hop, heff.ip_of_ret] at hf
    exact Option.some.inj (beq_iff_eq.1 hf)
  · rw [fallsOff_of_ne hop hret, Bool.and_eq_true, beq_iff_eq] at hf
    rw [heff.ip_of_falls hf.1, wordSucc_of_lt (CArray.get?_lt hinst), hf.2]

/-- What the run keeps as long as it stays inside the program. -/
structure InProgram (p : TvmProgram) (vm : Vm W) : Prop where
  program : vm.program = p
  ip : vm.ip < p.size
  saved : ∀ i < vm.rsp, ∀ v, vm.returnStack.get? i = some v → v ≤ p.size

theorem InProgram.step {env : Env W} {p : TvmProgram} (hin : InProgram p vm)
    (h : tvmExecOpcode env vm = .ok (.ok, vm')) (hgo : vm'.halted = false) (hf : fallsOff vm = false) :
    InProgram p vm' := by
  obtain ⟨rfl, hip, hsaved⟩ := hin
  obtain ⟨inst, op, hinst, hop, heff⟩ := tvmExecOpcode_effect h
  refine ⟨heff.program, ?_, heff.saved_le hip hsaved⟩
  rcases heff.ip_cases with hhalt | hfall | hjump | rfl
  · rw [hgo] at hhalt; cases hhalt
  · have hne : op ≠ .ret := fun he => by subst he; cases hfall
    rw [fallsOff_of_ne hop hne, hfall, Bool.true_and, beq_eq_false_iff_ne] at hf
    rw [heff.ip_of_falls hfall, wordSucc_of_lt (CArray.get?_lt hinst)]
    omega
  · exact hjump
  · have hret := heff.ip_of_ret
    rw [fallsOff_of_ret hop, hret, beq_eq_false_iff_ne] at hf
    have hdeep : 0 < vm.rsp := by
      cases heff with
      | next falls => cases falls
      | store is => cases is
      | jump is => rcases is with is | is | is <;> cases is
      | call is => cases is
      | ret _ deep => exact deep
      | halt is => cases is
    have hle := hsaved (vm.rsp - 1) (by omega) _ hret
    have hne : vm'.ip ≠ vm.program.size := fun he => hf (by rw [he])
    omega

/-! ## Fetches -/

theorem tvmInit_state {env : Env W} {p : TvmProgram} {world : W} (h : tvmInit env p world = .ok vm) :
    vm.program = p ∧ vm.ip = 0 ∧ vm.rsp = 0 := by
  obtain ⟨⟨frame, frames⟩, -, h⟩ := Except.bind_ok h
  cases h
  exact ⟨rfl, rfl, rfl⟩

theorem tvmRunCond_true : tvmRunCond vm = true ↔ vm.halted = false ∧ vm.ip ≤ vm.program.size := by
  simp [tvmRunCond]

/-- A run keeps its program. -/
theorem tvmRun_program {env : Env W} {program : TvmProgram} {world : W} {ρ : Nat → Vm W} {n : Nat}
    (hinit : tvmInit env program world = .ok (ρ 0)) (hrun : Loop.Trace tvmRunCond (tvmRunBody env) ρ n) :
    ∀ i ≤ n, (ρ i).program = program := by
  refine hrun.inv (·.program = program) (tvmInit_state hinit).1 fun i _ hi hbody _ => ?_
  obtain ⟨_, _, _, _, heff⟩ := tvmExecOpcode_effect (tvmRunBody_ok hbody)
  exact heff.program.trans hi

/-- A run of `tvm_run` fetches inside the program if and only if the program is not empty and none
of the steps after which it fetches again falls off the end. -/
theorem tvmRun_fetches_iff (env : Env W) (program : TvmProgram) (world : W) (ρ : Nat → Vm W) (n : Nat)
    (hinit : tvmInit env program world = .ok (ρ 0)) (hrun : Loop.Trace tvmRunCond (tvmRunBody env) ρ n) :
    (∀ i ≤ n, (ρ i).ip < program.size) ↔ 0 < program.size ∧ ∀ i < n, fallsOff (ρ i) = false := by
  obtain ⟨hprog, hip, hrsp⟩ := tvmInit_state hinit
  constructor
  · intro hlt
    refine ⟨by have := hlt 0 (Nat.zero_le _); omega, fun i hi => ?_⟩
    by_contra hf
    have hoff := ip_of_fallsOff (tvmRunBody_ok (hrun.turn i hi)) (Bool.not_eq_false _ ▸ hf)
    have := hlt (i + 1) hi
    rw [hoff, tvmRun_program hinit hrun i (by omega)] at this
    omega
  · rintro ⟨hpos, hoff⟩ i hi
    have hin : ∀ j ≤ n, InProgram program (ρ j) := by
      refine hrun.inv _ ⟨hprog, by omega, fun i hi => by omega⟩ fun j hj hin hbody hcond => ?_
      exact hin.step (tvmRunBody_ok hbody) (tvmRunCond_true.1 hcond).1 (hoff j hj)
    exact (hin i hi).ip

/-- The single instruction `nop`. -/
def onlyNop : TvmProgram := { TvmProgram.zero with size := 1 }

/-- The run of `nop` fetches a second time, behind the end of the program. -/
theorem tvmRun_fetches_behind : ∃ vm0 vm1 : Vm Unit, onlyNop.size ≤ tvmProgramCapacity ∧
    tvmInit (.bare [64]) onlyNop () = .ok vm0 ∧ tvmRunCond vm0 = true ∧
      tvmRunBody (.bare [64]) vm0 = .ok vm1 ∧ tvmRunCond vm1 = true ∧ ¬ vm1.ip < onlyNop.size :=
  ⟨_, _, by decide, rfl, rfl, rfl, rfl, by decide⟩

/-- The program `call 2`, `hlt`, `ret`. -/
def callBack : TvmProgram :=
  { TvmProgram.zero with
    code := TvmProgram.zero.code.putAll 0
      [⟨OpType.call.code, ⟨StackObjType.number.code, 2⟩⟩, ⟨OpType.halt.code, .zero⟩, ⟨OpType.ret.code, .zero⟩]
    size := 3 }

/-- Its run calls the last instruction and comes back to the one behind the call. -/
theorem tvmRun_fetches_callBack : ∃ ρ : Nat → Vm Unit, tvmInit (.bare [64, 128]) callBack () = .ok (ρ 0) ∧
    Loop.Trace tvmRunCond (tvmRunBody (.bare [64, 128])) ρ 2 ∧ (ρ 1).ip = 2 ∧ (ρ 2).ip = 1 ∧
    ∀ i ≤ 2, (ρ i).ip < callBack.size := by
  have hsteps : ∃ vm0 vm1 vm2 : Vm Unit, tvmInit (.bare [64, 128]) callBack () = .ok vm0 ∧
      tvmRunCond vm0 = true ∧ tvmRunBody (.bare [64, 128]) vm0 = .ok vm1 ∧ fallsOff vm0 = false ∧
      tvmRunCond vm1 = true ∧ tvmRunBody (.bare [64, 128]) vm1 = .ok vm2 ∧ fallsOff vm1 = false ∧
      tvmRunCond vm2 = true ∧ vm1.ip = 2 ∧ vm2.ip = 1 := ⟨_, _, _, rfl, rfl, rfl, rfl, rfl, rfl, rfl, rfl, rfl, rfl⟩
  obtain ⟨vm0, vm1, vm2, hinit, hc0, hb0, hf0, hc1, hb1, hf1, hc2, hip1, hip2⟩ := hsteps
  let ρ : Nat → Vm Unit := fun i => if i = 0 then vm0 else if i = 1 then vm1 else vm2
  have hrun : Loop.Trace tvmRunCond (tvmRunBody (.bare [64, 128])) ρ 2 := by
    constructor
    · intro i hi
      obtain rfl | rfl | rfl : i = 0 ∨ i = 1 ∨ i = 2 := by omega
      · exact hc0
      · exact hc1
      · exact hc2
    · intro i hi
      obtain rfl | rfl : i = 0 ∨ i = 1 := by omega
      · exact hb0
      · exact hb1
  refine ⟨ρ, hinit, hrun, hip1, hip2, ?_⟩
  refine (tvmRun_fetches_iff (.bare [64, 128]) callBack () ρ 2 hinit hrun).2 ⟨by decide, fun i hi => ?_⟩
  obtain rfl | rfl : i = 0 ∨ i = 1 := by omega
  · exact hf0
  · exact hf1

end TileVm
