/-
The stack exceptions against the objects that an instruction reads and the depth that it leaves. The
guards of the binary instructions refuse a full stack that they would shrink, as that of `OP_NATIVE`
does; `OP_SWAP` wants two objects even to exchange the top with itself.
-/
import TileVm.Vm.NativeAccess

namespace TileVm

open Except (Post)

variable {W : Type} {env : Env W} {inst : Opcode} {vm : Vm W}

/-! ## The effect on the stack -/

/-- The function that the operand of `OP_NATIVE` declares. -/
def declaredFun (inst : Opcode) (vm : Vm W) : Option TvmProgramCfun :=
  if inst.operand.ui32.toNat < (module0 vm.program).cfunCount then (module0 vm.program).cfuns.get? inst.operand.ui32.toNat
  else none

/-- The number of stack objects that `op` consumes or reads. -/
def objectsRead (op : OpType) (inst : Opcode) (vm : Vm W) : Nat :=
  match op with
  | .nop | .push | .jmp | .call | .ret | .loadc | .aloadc | .load | .gload | .halt => 0
  | .pop | .dup | .inc | .incf | .dec | .decf | .jz | .jnz | .ci2f | .ci2u | .cf2i | .cf2u | .cu2i | .cu2f => 1
  | .not | .bnot | .store | .gstore | .deref | .derefb | .puts | .putc => 1
  | .cln | .swap => inst.operand.ui32.toNat + 1
  | .hset | .hsetof => 4
  | .native => (declaredFun inst vm).elim 0 (·.acount)
  | _ => 2

/-- The depth of the stack behind `op`. -/
def depthAfter (op : OpType) (inst : Opcode) (vm : Vm W) : Nat :=
  match op with
  | .push | .dup | .cln | .loadc | .aloadc | .load | .gload => vm.sp + 1
  | .nop | .swap | .inc | .incf | .dec | .decf | .jmp | .call | .ret | .ci2f | .ci2u | .cf2i | .cf2u | .cu2i | .cu2f => vm.sp
  | .not | .bnot | .deref | .derefb | .halt => vm.sp
  | .hset | .hsetof => vm.sp - 4
  | .native =>
    match declaredFun inst vm with
    | some f => vm.sp - f.acount + if f.rtype = CType.void.code then 0 else 1
    | none => vm.sp
  | _ => vm.sp - 1

/-- A stack exception has its reason: the depth behind the instruction, or the objects it reads. -/
structure StackExact (env : Env W) (inst : Opcode) (vm : Vm W) : Prop where
  overflow : ∀ vm', tvmExecInst env inst vm = .ok (.stackOverflow, vm') →
    ∃ op, OpType.ofNat? inst.type.toNat = some op ∧ tvmStackCapacity < depthAfter op inst vm
  underflow : ∀ vm', tvmExecInst env inst vm = .ok (.stackUnderflow, vm') →
    ∃ op, OpType.ofNat? inst.type.toNat = some op ∧ vm.sp < objectsRead op inst vm

/-- The instructions that replace two objects by one and refuse a full stack. -/
def refusesFull : OpType → Bool
  | .add | .sub | .mult | .div | .mod | .addf | .subf | .multf | .divf => true
  | .gt | .gtf | .lt | .ltf | .eq | .eqf | .ge | .gef | .le | .lef | .and | .or => true
  | _ => false

/-- A stack exception without its reason. A full stack is refused by a binary instruction and by the call of a function
that leaves no more than it takes; one object by an exchange with itself; and an undeclared function asks for the
arguments that its entry has. -/
def SpuriousException (op : OpType) (inst : Opcode) (vm : Vm W) : Prop :=
  match op with
  | .swap => vm.sp = 1 ∧ inst.operand.ui32 = 0
  | .native => ∃ f, (module0 vm.program).cfuns.get? inst.operand.ui32.toNat = some f ∧
      if inst.operand.ui32.toNat < (module0 vm.program).cfunCount then
        vm.sp = tvmStackCapacity ∧ f.acount ≤ vm.sp ∧ (f.rtype = CType.void.code ∨ 0 < f.acount)
      else vm.sp < f.acount ∨ vm.sp = tvmStackCapacity
  | op => refusesFull op = true ∧ vm.sp = tvmStackCapacity

/-! ## Rules -/

/-- `x` faults, or raises a stack overflow only under `P` and a stack underflow only under `Q`. -/
abbrev Raises (P Q : Prop) (x : Except Fault (Ret W)) : Prop :=
  Post (fun _ => True) (fun r => (r.1 = .stackOverflow → P) ∧ (r.1 = .stackUnderflow → Q)) x

section Rules

variable {P Q : Prop} {w : Vm W} {c : Prop} [Decidable c] {x : Except Fault (Ret W)}

theorem done_raises : Raises P Q (done w) := ⟨nofun, nofun⟩

theorem bind_raises {α : Type} {x : Except Fault α} {f : α → Except Fault (Ret W)} (h : ∀ a, Raises P Q (f a)) :
    Raises P Q (x >>= f) :=
  .bind_any (fun _ => trivial) h

/-- A guard that raises another exception. -/
theorem other_raises {e : TvmException} (hover : e ≠ .stackOverflow) (hunder : e ≠ .stackUnderflow) (h : ¬ c → Raises P Q x) :
    Raises P Q (if c then raise e w else x) :=
  .ite (fun _ => ⟨fun he => absurd he hover, fun he => absurd he hunder⟩) h

theorem overflow_raises (hP : c → P) (h : ¬ c → Raises P Q x) : Raises P Q (if c then raise .stackOverflow w else x) :=
  .ite (fun hc => ⟨fun _ => hP hc, nofun⟩) h

theorem underflow_raises (hQ : c → Q) (h : ¬ c → Raises P Q x) : Raises P Q (if c then raise .stackUnderflow w else x) :=
  .ite (fun hc => ⟨nofun, fun _ => hQ hc⟩) h

/-! ## Families -/

theorem pushWith_raises {f : ObjectT → Except Fault ObjectT} : Raises P Q (pushWith f w) :=
  bind_raises fun _ => bind_raises fun _ => bind_raises fun _ => done_raises

theorem applyTwo_raises {f : ObjectT → ObjectT → Except Fault ObjectT} : Raises P Q (applyTwo f w) :=
  bind_raises fun _ => bind_raises fun _ => bind_raises fun _ => bind_raises fun _ => done_raises

theorem binaryOp_raises {f : ObjectT → ObjectT → Except Fault ObjectT} (hQ : w.sp < 2 → Q) : Raises P Q (binaryOp f w) :=
  underflow_raises hQ fun _ => applyTwo_raises

theorem arithOp_raises {f : ObjectT → ObjectT → Except Fault ObjectT} (hQ : w.sp < 2 → Q) (hP : tvmStackCapacity ≤ w.sp → P) :
    Raises P Q (arithOp f w) :=
  underflow_raises hQ fun _ => overflow_raises hP fun _ => applyTwo_raises

theorem divOp_raises {f : ObjectT → ObjectT → Except Fault ObjectT} (hQ : w.sp < 2 → Q) (hP : tvmStackCapacity ≤ w.sp → P) :
    Raises P Q (divOp f w) :=
  underflow_raises hQ fun _ => overflow_raises hP fun _ => bind_raises fun _ =>
    other_raises (by decide) (by decide) fun _ => applyTwo_raises

theorem unaryOp_raises {f : ObjectT → ObjectT} (hQ : w.sp < 1 → Q) : Raises P Q (unaryOp f w) :=
  underflow_raises hQ fun _ => bind_raises fun _ => bind_raises fun _ => done_raises

theorem condJump_raises (taken : BitVec 32 → Bool) (hQ : w.sp < 1 → Q) : Raises P Q (condJump taken inst w) :=
  underflow_raises hQ fun _ => other_raises (by decide) (by decide) fun _ => bind_raises fun _ =>
    .ite (fun _ => done_raises) fun _ => done_raises

theorem loadTop_raises {f : Addr → Except Fault (BitVec 64)} : Raises P Q (loadTop f w) :=
  bind_raises fun _ => bind_raises fun _ => bind_raises fun _ => done_raises

theorem heapSet_raises {width offset : BitVec 32} : Raises P Q (heapSet env width offset w) := by
  refine bind_raises fun _ => bind_raises fun _ => other_raises (by decide) (by decide) fun _ => .ite (fun _ => ?_) fun _ => ?_
  · exact bind_raises fun _ => bind_raises fun _ => bind_raises fun _ => done_raises
  · exact ⟨nofun, nofun⟩

/-- The guards of `OP_NATIVE` look at the entry of the table. -/
theorem opNative_raises (h : ∀ f, (module0 vm.program).cfuns.get? inst.operand.ui32.toNat = some f →
      (vm.sp < f.acount → Q) ∧ (f.acount ≤ vm.sp → tvmStackCapacity ≤ vm.sp → P)) :
    Raises P Q (opNative env inst vm) := by
  unfold opNative
  refine Post.bind (Post.intro (fun _ _ => trivial) fun f hf => ?_)
  obtain ⟨hQ, hP⟩ := h f (cfun_ok.mp hf)
  refine bind_raises fun _ => underflow_raises hQ fun hroom => overflow_raises (hP (Nat.not_lt.mp hroom)) fun _ => ?_
  refine other_raises (by decide) (by decide) fun _ => bind_raises fun _ => .ite (fun _ => ?_) fun _ => ?_
  · exact bind_raises fun _ => done_raises
  · exact bind_raises fun _ => pushWith_raises

end Rules

/-! ## The switch -/

/-- Every other guard on the stack is exact. -/
theorem tvmExecOp_raises {op : OpType} (hsp : vm.sp ≤ tvmStackCapacity) (h : ¬ SpuriousException op inst vm) :
    Raises (tvmStackCapacity < depthAfter op inst vm) (vm.sp < objectsRead op inst vm) (tvmExecOp env op inst vm) := by
  have grows (hle : tvmStackCapacity ≤ vm.sp) : tvmStackCapacity < vm.sp + 1 := Nat.lt_succ_of_le hle
  have shrinks {P : Prop} (hne : ¬ (true = true ∧ vm.sp = tvmStackCapacity)) (hle : tvmStackCapacity ≤ vm.sp) : P :=
    absurd ⟨rfl, Nat.le_antisymm hsp hle⟩ hne
  have one (hle : vm.sp ≤ 0) : vm.sp < 1 := Nat.lt_succ_of_le hle
  -- one case for each opcode: its guards in the order of the source
  cases op with
  | nop | halt => exact done_raises
  | push => exact overflow_raises grows fun _ => pushWith_raises
  | pop => exact underflow_raises one fun _ => done_raises
  | add | sub | mult | addf | subf | multf | divf => exact arithOp_raises id (shrinks h)
  | gt | gtf | lt | ltf | eq | eqf | ge | gef | le | lef | and | or => exact arithOp_raises id (shrinks h)
  | div | mod => exact divOp_raises id (shrinks h)
  | dup => exact underflow_raises id fun _ => overflow_raises grows fun _ => bind_raises fun _ => pushWith_raises
  | cln =>
    refine other_raises (by decide) (by decide) fun _ => underflow_raises (fun hlt => ?_) fun _ => overflow_raises grows fun _ => ?_
    · exact show vm.sp < inst.operand.ui32.toNat + 1 by omega
    · exact bind_raises fun _ => pushWith_raises
  | swap =>
    refine other_raises (by decide) (by decide) fun hread => underflow_raises (fun hlt => ?_) fun _ => ?_
    · -- the operand is below the depth, so that it is 0
      refine absurd ⟨?_, ?_⟩ h
      · omega
      · exact BitVec.eq_of_toNat_eq (show inst.operand.ui32.toNat = 0 by omega)
    · refine bind_raises fun _ => bind_raises fun _ => bind_raises fun _ => bind_raises fun _ => done_raises
  | inc | incf | dec | decf | ci2f | ci2u | cf2i | cf2u | cu2i | cu2f | not | bnot => exact unaryOp_raises id
  | jmp => exact other_raises (by decide) (by decide) fun _ => done_raises
  | jz => exact condJump_raises (· == 0) id
  | jnz => exact condJump_raises (· != 0) id
  | call =>
    refine other_raises (by decide) (by decide) fun _ => other_raises (by decide) (by decide) fun _ => ?_
    exact bind_raises fun _ => bind_raises fun _ => done_raises
  | ret => exact other_raises (by decide) (by decide) fun _ => bind_raises fun _ => bind_raises fun _ => done_raises
  | band | bor | lshft | rshft => exact binaryOp_raises id
  | loadc =>
    refine overflow_raises grows fun _ => other_raises (by decide) (by decide) fun _ => bind_raises fun _ => ?_
    exact .ite (fun _ => trivial) fun _ => pushWith_raises
  | aloadc =>
    exact overflow_raises grows fun _ => other_raises (by decide) (by decide) fun _ => bind_raises fun _ => pushWith_raises
  | load =>
    refine overflow_raises grows fun _ => other_raises (by decide) (by decide) fun _ => ?_
    exact bind_raises fun _ => bind_raises fun _ => pushWith_raises
  | gload =>
    exact overflow_raises grows fun _ => other_raises (by decide) (by decide) fun _ => bind_raises fun _ => pushWith_raises
  | store =>
    refine underflow_raises one fun _ => other_raises (by decide) (by decide) fun _ => ?_
    exact bind_raises fun _ => bind_raises fun _ => bind_raises fun _ => done_raises
  | gstore =>
    refine underflow_raises one fun _ => other_raises (by decide) (by decide) fun _ => ?_
    exact bind_raises fun _ => bind_raises fun _ => done_raises
  | halloc =>
    refine underflow_raises id fun _ => bind_raises fun _ => bind_raises fun _ => bind_raises fun _ => ?_
    exact bind_raises fun _ => done_raises
  | deref => exact underflow_raises one fun _ => loadTop_raises
  | derefb =>
    refine underflow_raises one fun _ => other_raises (by decide) (by decide) fun _ => .ite (fun _ => ?_) fun _ => ?_
    · exact loadTop_raises
    · exact .ite (fun _ => loadTop_raises) fun _ => .ite (fun _ => loadTop_raises) fun _ => ⟨nofun, nofun⟩
  | hset => exact underflow_raises id fun _ => bind_raises fun _ => bind_raises fun _ => heapSet_raises
  | hsetof => exact underflow_raises id fun _ => bind_raises fun _ => bind_raises fun _ => heapSet_raises
  | puts => exact underflow_raises id fun _ => bind_raises fun _ => bind_raises fun _ => done_raises
  | putc => exact underflow_raises id fun _ => bind_raises fun _ => done_raises
  | native =>
    refine opNative_raises fun f hf => ?_
    have hne (hif : if inst.operand.ui32.toNat < (module0 vm.program).cfunCount then
        vm.sp = tvmStackCapacity ∧ f.acount ≤ vm.sp ∧ (f.rtype = CType.void.code ∨ 0 < f.acount)
        else vm.sp < f.acount ∨ vm.sp = tvmStackCapacity) : False := h ⟨f, hf, hif⟩
    simp only [objectsRead, depthAfter, declaredFun]
    -- the guards on the stack come before the one on the function
    by_cases hid : inst.operand.ui32.toNat < (module0 vm.program).cfunCount
    · rw [if_pos hid, hf]
      rw [if_pos hid] at hne
      refine ⟨id, fun hroom hfull => ?_⟩
      have hgrows : ¬ (f.rtype = CType.void.code ∨ 0 < f.acount) := fun hor =>
        hne ⟨Nat.le_antisymm hsp hfull, hroom, hor⟩
      rw [not_or] at hgrows
      dsimp only
      rw [if_neg hgrows.1]
      omega
    · rw [if_neg hid] at hne
      exact ⟨fun hlt => absurd (.inl hlt) hne, fun _ hfull => absurd (.inr (Nat.le_antisymm hsp hfull)) hne⟩

/-- A spurious exception is raised. -/
theorem spurious_raised {op : OpType} (h : SpuriousException op inst vm) (hsp : vm.sp ≤ tvmStackCapacity) :
    tvmExecOp env op inst vm = .ok (.stackOverflow, vm) ∧ depthAfter op inst vm ≤ tvmStackCapacity ∨
      tvmExecOp env op inst vm = .ok (.stackUnderflow, vm) ∧ objectsRead op inst vm ≤ vm.sp := by
  have full {x : Except Fault (Ret W)} {d : Nat} (hfull : true = true ∧ vm.sp = tvmStackCapacity)
      (hx : vm.sp = tvmStackCapacity → x = raise .stackOverflow vm) (hd : d = vm.sp - 1) :
      x = .ok (.stackOverflow, vm) ∧ d ≤ tvmStackCapacity :=
    ⟨hx hfull.2, by omega⟩
  cases op with
  | add | sub | mult | addf | subf | multf | divf | gt | gtf | lt | ltf | eq | eqf | ge | gef | le | lef | and | or =>
    refine .inl (full h (fun hfull => ?_) rfl)
    show arithOp _ vm = _
    rw [arithOp, if_neg (by rw [hfull]; decide), if_pos (Nat.le_of_eq hfull.symm)]
  | div | mod =>
    refine .inl (full h (fun hfull => ?_) rfl)
    show divOp _ vm = _
    rw [divOp, if_neg (by rw [hfull]; decide), if_pos (Nat.le_of_eq hfull.symm)]
  | swap =>
    -- `swap 0` with one object on the stack
    obtain ⟨hone, hzero⟩ := h
    have hread : inst.operand.ui32.toNat = 0 := by rw [hzero]; rfl
    refine .inr ⟨?_, show inst.operand.ui32.toNat + 1 ≤ vm.sp by omega⟩
    show (if vm.sp ≤ inst.operand.ui32.toNat then _ else if vm.sp < 2 then raise .stackUnderflow vm else _) = _
    rw [if_neg (by omega), if_pos (by omega)]
    rfl
  | native =>
    obtain ⟨f, hf, hif⟩ := h
    -- the guards of `OP_NATIVE` look at the arguments, not at the result
    have hunder (hlt : vm.sp < f.acount) : tvmExecOp env .native inst vm = .ok (.stackUnderflow, vm) := by
      show opNative env inst vm = _
      unfold opNative
      rw [Except.bind_of_ok (cfun_ok.mpr hf), Except.bind_of_ok (load_module0 _), if_pos hlt]
      rfl
    have hover (hroom : f.acount ≤ vm.sp) (hfull : vm.sp = tvmStackCapacity) :
        tvmExecOp env .native inst vm = .ok (.stackOverflow, vm) := by
      show opNative env inst vm = _
      unfold opNative
      rw [Except.bind_of_ok (cfun_ok.mpr hf), Except.bind_of_ok (load_module0 _), if_neg (Nat.not_lt.mpr hroom),
        if_pos (Nat.le_of_eq hfull.symm)]
      rfl
    simp only [objectsRead, depthAfter, declaredFun]
    by_cases hid : inst.operand.ui32.toNat < (module0 vm.program).cfunCount
    · rw [if_pos hid] at hif
      obtain ⟨hfull, hroom, hor⟩ := hif
      refine .inl ⟨hover hroom hfull, ?_⟩
      rw [if_pos hid, hf]
      dsimp only
      split
      · omega
      · have := hor.resolve_left ‹_›
        omega
    · rw [if_neg hid] at hif ⊢
      by_cases hlt : vm.sp < f.acount
      · exact .inr ⟨hunder hlt, Nat.zero_le _⟩
      · exact .inl ⟨hover (Nat.not_lt.mp hlt) (hif.resolve_left hlt), hsp⟩
  | _ => exact absurd h.1 (by decide)

/-- The stack exceptions of an instruction are exact in every state in which it raises no spurious one. -/
theorem stack_exact_iff (env : Env W) (inst : Opcode) (vm : Vm W) (hsp : vm.sp ≤ tvmStackCapacity) :
    StackExact env inst vm ↔ ∀ op, OpType.ofNat? inst.type.toNat = some op → ¬ SpuriousException op inst vm := by
  constructor
  · intro h op hop hspurious
    have hexec : tvmExecInst env inst vm = tvmExecOp env op inst vm := by
      unfold tvmExecInst
      rw [hop]
    rcases spurious_raised hspurious hsp with ⟨hraised, hdepth⟩ | ⟨hraised, hread⟩
    · obtain ⟨op', hop', hlt⟩ := h.overflow vm (hexec.trans hraised)
      cases hop.symm.trans hop'
      omega
    · obtain ⟨op', hop', hlt⟩ := h.underflow vm (hexec.trans hraised)
      cases hop.symm.trans hop'
      omega
  · intro h
    cases hop : OpType.ofNat? inst.type.toNat with
    | none =>
      -- an invalid instruction raises neither
      have hexec : tvmExecInst env inst vm = raise .invalidInstruction vm := by
        unfold tvmExecInst
        rw [hop]
      constructor
      all_goals
        intro vm' hvm'
        rw [hexec] at hvm'
        cases hvm'
    | some op =>
      have hexec : tvmExecInst env inst vm = tvmExecOp env op inst vm := by
        unfold tvmExecInst
        rw [hop]
      have hraises : Raises _ _ (tvmExecOp env op inst vm) := tvmExecOp_raises hsp (h op hop)
      constructor
      · intro vm' hvm'
        exact ⟨op, hop, (hraises.of_ok (hexec.symm.trans hvm')).1 rfl⟩
      · intro vm' hvm'
        exact ⟨op, hop, (hraises.of_ok (hexec.symm.trans hvm')).2 rfl⟩

/-! ## Two states -/

/-- A stack of the given depth. -/
def Vm.ofDepth (vm : Vm W) (sp : Nat) : Vm W := { vm with sp }

/-- A `push` on a full stack overflows, and has to. -/
theorem stack_exact_push : ∃ vm : Vm Unit, tvmInit (.bare [64]) .zero () = .ok vm ∧
    StackExact (.bare [64]) ⟨OpType.push.code, .zero⟩ (vm.ofDepth 1024) := by
  refine ⟨_, rfl, (stack_exact_iff (.bare [64]) _ _ (by decide)).mpr ?_⟩
  intro op hop hspurious
  obtain rfl : OpType.push = op := Option.some.inj hop
  obtain ⟨hrefuses, -⟩ := hspurious
  cases hrefuses

/-- An `add` on a full stack. -/
theorem add_refuses_full : ∃ vm : Vm Unit, tvmInit (.bare [64]) .zero () = .ok vm ∧
    ¬ StackExact (.bare [64]) ⟨OpType.add.code, .zero⟩ (vm.ofDepth 1024) := by
  refine ⟨_, rfl, fun h => ?_⟩
  obtain ⟨op, hop, hlt⟩ := h.overflow _ rfl
  cases hop
  revert hlt
  decide

end TileVm
