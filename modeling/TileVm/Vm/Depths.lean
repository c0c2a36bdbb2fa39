/-
Programs whose stack depths fit together: a depth for each instruction, counted from the arguments of
the proc it stands in, and for each proc the number of its arguments and of its results. A run of such
a program reaches below no argument, jumps to instructions only, and returns from no call that was not
made, however its procs call each other. Where the procs keep to bounds that add up along the calls,
no stack is ever full.
-/
import TileVm.Vm.Native
import TileVm.Vm.Outline
import TileVm.Vm.StackDepth

namespace TileVm

open Except (Post)

variable {W : Type} {vm w : Vm W} {env : Env W} {inst : Opcode}

/-! ## The effect of an instruction -/

/-- How many objects an instruction reaches, takes, and leaves. -/
structure StackEffect where
  needs : Nat
  takes : Nat
  gives : Nat

theorem zero_lt_moduleCapacity : 0 < tvmMetadataMaxModuleCapacity := by decide

/-- The entry of the function table that `OP_NATIVE` looks at. -/
def ProgramTables.cfun? (tables : ProgramTables) (id : Nat) : Option TvmProgramCfun :=
  (tables.metadata.modules.cell ⟨0, zero_lt_moduleCapacity⟩).cfuns.get? id

def stackEffect (tables : ProgramTables) (op : OpType) (inst : Opcode) : StackEffect :=
  match op with
  | .nop | .jmp | .call | .ret | .halt => ⟨0, 0, 0⟩
  | .push | .loadc | .aloadc | .load | .gload => ⟨0, 0, 1⟩
  | .pop | .jz | .jnz | .store | .gstore | .puts | .putc => ⟨1, 1, 0⟩
  | .inc | .incf | .dec | .decf | .ci2f | .ci2u | .cf2i | .cf2u | .cu2i | .cu2f | .not | .bnot => ⟨1, 0, 0⟩
  | .deref | .derefb => ⟨1, 0, 0⟩
  | .dup => ⟨1, 0, 1⟩
  | .cln => ⟨inst.operand.ui32.toNat + 1, 0, 1⟩
  | .swap => ⟨max 2 (inst.operand.ui32.toNat + 1), 0, 0⟩
  | .hset | .hsetof => ⟨4, 4, 0⟩
  | .native =>
    match tables.cfun? inst.operand.ui32.toNat with
    | some f => ⟨f.acount, f.acount, if f.rtype = CType.void.code then 0 else 1⟩
    | none => ⟨0, 0, 0⟩
  | _ => ⟨2, 2, 1⟩

/-- The depth behind an instruction. -/
def StackEffect.after (e : StackEffect) (n : Nat) : Nat := n - e.takes + e.gives

/-- The depth that an instruction needs room for. Some instructions refuse a full stack though they shrink it, and so does
`OP_NATIVE`. -/
def peak (tables : ProgramTables) (op : OpType) (inst : Opcode) (n : Nat) : Nat :=
  if refusesFull op = true ∨ op = .native then n + 1 else max n ((stackEffect tables op inst).after n)

/-- The exceptions of a program whose instructions do not fit together. -/
def TvmException.isMisfit : TvmException → Bool
  | .stackUnderflow | .returnStackUnderflow | .invalidInstruction | .invalidInstructionAccess | .invalidStackAccess => true
  | _ => false

def TvmException.isOverflow : TvmException → Bool
  | .stackOverflow | .returnStackOverflow => true
  | _ => false

/-- What an instruction without a target may raise where the depths fit. -/
def TvmException.isPlain (e : TvmException) : Bool := !e.isMisfit && e != .returnStackOverflow

/-! ## Rules -/

/-- `x` faults, or raises a plain exception, or leaves the depth `n`. -/
abbrev Leaves (n : Nat) (x : Except Fault (Ret W)) : Prop :=
  Post (fun _ => True) (fun r => r.1.isPlain = true ∧ (r.1 = .ok → r.2.sp = n)) x

section Rules

variable {n : Nat} {c : Prop} [Decidable c] {e : TvmException} {x : Except Fault (Ret W)}

theorem leaves_done (h : w.sp = n) : Leaves n (done w) := ⟨rfl, fun _ => h⟩

theorem leaves_bind {α : Type} {x : Except Fault α} {f : α → Except Fault (Ret W)} (h : ∀ a, Leaves n (f a)) :
    Leaves n (x >>= f) :=
  .bind_any (fun _ => trivial) h

theorem leaves_stackSet {i : Nat} {o : ObjectT} {f : Vm W → Except Fault (Ret W)}
    (h : ∀ stack, Leaves n (f { w with stack })) : Leaves n (w.stackSet i o >>= f) := by
  refine .bind (.intro (fun _ _ => trivial) fun a ha => ?_)
  obtain ⟨stack, -, rfl⟩ := Except.map_eq_ok ha
  exact h stack

/-- A guard that the depth satisfies. -/
theorem leaves_pass (hc : ¬ c) (h : Leaves n x) : Leaves n (if c then raise e w else x) := by
  rw [if_neg hc]
  exact h

/-- A guard of another kind. -/
theorem leaves_guard (he : e.isPlain = true) (hok : e ≠ .ok) (h : Leaves n x) : Leaves n (if c then raise e w else x) :=
  .ite (fun _ => ⟨he, fun h => absurd h hok⟩) fun _ => h

theorem leaves_ite {y : Except Fault (Ret W)} (hx : Leaves n x) (hy : Leaves n y) : Leaves n (if c then x else y) :=
  .ite (fun _ => hx) fun _ => hy

theorem pushWith_leaves {f : ObjectT → Except Fault ObjectT} (h : w.sp + 1 = n) : Leaves n (pushWith f w) :=
  leaves_bind fun _ => leaves_bind fun _ => leaves_stackSet fun _ => leaves_done h

end Rules

/-! ## Families -/

section Families

variable {n : Nat} {f : ObjectT → ObjectT → Except Fault ObjectT}

theorem applyTwo_leaves (h : 2 ≤ vm.sp) : Leaves (vm.sp - 2 + 1) (applyTwo f vm) := by
  refine leaves_bind fun _ => leaves_bind fun _ => leaves_bind fun _ => leaves_stackSet fun _ => leaves_done ?_
  show vm.sp - 1 = _
  omega

theorem binaryOp_leaves (h : 2 ≤ vm.sp) : Leaves (vm.sp - 2 + 1) (binaryOp f vm) :=
  leaves_pass (Nat.not_lt.mpr h) (applyTwo_leaves h)

theorem arithOp_leaves (h : 2 ≤ vm.sp) : Leaves (vm.sp - 2 + 1) (arithOp f vm) :=
  leaves_pass (Nat.not_lt.mpr h) (leaves_guard rfl (by decide) (applyTwo_leaves h))

theorem divOp_leaves (h : 2 ≤ vm.sp) : Leaves (vm.sp - 2 + 1) (divOp f vm) :=
  leaves_pass (Nat.not_lt.mpr h) (leaves_guard rfl (by decide) (leaves_bind fun _ =>
    leaves_guard rfl (by decide) (applyTwo_leaves h)))

theorem unaryOp_leaves {f : ObjectT → ObjectT} (h : 1 ≤ vm.sp) : Leaves (vm.sp - 0 + 0) (unaryOp f vm) :=
  leaves_pass (Nat.not_lt.mpr h) (leaves_bind fun _ => leaves_stackSet fun _ => leaves_done rfl)

theorem loadTop_leaves {f : Addr → Except Fault (BitVec 64)} : Leaves vm.sp (loadTop f vm) :=
  leaves_bind fun _ => leaves_bind fun _ => leaves_stackSet fun _ => leaves_done rfl

theorem heapSet_leaves {width offset : BitVec 32} : Leaves (vm.sp - 4 + 0) (heapSet env width offset vm) := by
  refine leaves_bind fun _ => leaves_bind fun _ => leaves_guard rfl (by decide) (leaves_ite ?_ ⟨rfl, nofun⟩)
  exact leaves_bind fun _ => leaves_bind fun _ => leaves_bind fun _ => leaves_done rfl

end Families

theorem nativeCall_sp {lib : NativeLib W} {id : Nat} {rvalue : Option (BitVec 64)} {avalues : List (BitVec 64)}
    {r : Vm W × BitVec 64} (h : tciNativeCall lib vm id rvalue avalues = .ok r) : r.1.sp = vm.sp := by
  unfold tciNativeCall at h
  obtain ⟨f, -, h⟩ := Except.bind_ok h
  obtain ⟨name, -, h⟩ := Except.bind_ok h
  dsimp only at h
  split at h
  · cases h
  · cases h
    rfl
  · split at h
    · cases h
    · obtain ⟨args, -, h⟩ := Except.bind_ok h
      split at h
      · cases h
        rfl
      · obtain ⟨ret, -, h⟩ := Except.bind_ok h
        cases h
        rfl

theorem opNative_leaves (h : (stackEffect vm.program.tables .native inst).needs ≤ vm.sp) :
    Leaves ((stackEffect vm.program.tables .native inst).after vm.sp) (opNative env inst vm) := by
  unfold opNative
  refine .bind (.intro (fun _ _ => trivial) fun f hf => ?_)
  have heffect : stackEffect vm.program.tables .native inst = ⟨f.acount, f.acount, if f.rtype = CType.void.code then 0 else 1⟩ := by
    have hentry : vm.program.tables.cfun? inst.operand.ui32.toNat = some f := cfun_ok.1 hf
    unfold stackEffect
    rw [hentry]
  rw [heffect] at h ⊢
  rw [Except.bind_of_ok (load_module0 vm.program)]
  refine leaves_pass (Nat.not_lt.mpr h) (leaves_guard rfl (by decide) (leaves_guard rfl (by decide) ?_))
  refine leaves_bind fun vargs => .ite (fun hvoid => ?_) fun hvoid => ?_
  · rw [if_pos hvoid]
    exact .bind (.intro (fun _ _ => trivial) fun r hr => leaves_done (nativeCall_sp hr))
  · rw [if_neg hvoid]
    refine .bind (.intro (fun _ _ => trivial) fun r hr => pushWith_leaves ?_)
    exact congrArg Nat.succ (nativeCall_sp hr)

/-- What the other instructions do to the depth is their effect. -/
theorem tvmExecOp_leaves {op : OpType} (hop : op.isControl = false)
    (h : (stackEffect vm.program.tables op inst).needs ≤ vm.sp) :
    Leaves ((stackEffect vm.program.tables op inst).after vm.sp) (tvmExecOp env op inst vm) := by
  cases op with
  | jmp | jz | jnz | call | ret | halt | load | store => cases hop
  | native => exact opNative_leaves h
  | nop => exact leaves_done rfl
  | push => exact leaves_guard rfl (by decide) (pushWith_leaves rfl)
  | pop => exact leaves_pass (Nat.not_le.mpr h) (leaves_done rfl)
  | add | sub | mult | addf | subf | multf | divf | gt | gtf | lt | ltf | eq | eqf | ge | gef | le | lef | and | or =>
    exact arithOp_leaves h
  | div | mod => exact divOp_leaves h
  | band | bor | lshft | rshft => exact binaryOp_leaves h
  | inc | incf | dec | decf | ci2f | ci2u | cf2i | cf2u | cu2i | cu2f | not | bnot => exact unaryOp_leaves h
  | dup => exact leaves_pass (Nat.not_lt.mpr h) (leaves_guard rfl (by decide) (leaves_bind fun _ => pushWith_leaves rfl))
  | cln =>
    have hreach : inst.operand.ui32.toNat + 1 ≤ vm.sp := h
    refine leaves_pass (by omega) (leaves_pass (by omega) (leaves_guard rfl (by decide) ?_))
    exact leaves_bind fun _ => pushWith_leaves rfl
  | swap =>
    have hreach : max 2 (inst.operand.ui32.toNat + 1) ≤ vm.sp := h
    refine leaves_pass (by omega) (leaves_pass (by omega) (leaves_bind fun _ => leaves_bind fun _ => ?_))
    exact leaves_stackSet fun _ => leaves_stackSet fun _ => leaves_done rfl
  | loadc =>
    refine leaves_guard rfl (by decide) (leaves_guard rfl (by decide) (leaves_bind fun _ => .ite (fun _ => trivial) fun _ => ?_))
    exact pushWith_leaves rfl
  | aloadc | gload =>
    exact leaves_guard rfl (by decide) (leaves_guard rfl (by decide) (leaves_bind fun _ => pushWith_leaves rfl))
  | gstore =>
    refine leaves_pass (Nat.not_le.mpr h) (leaves_guard rfl (by decide) ?_)
    exact leaves_bind fun _ => leaves_bind fun _ => leaves_done rfl
  | halloc =>
    have hreach : 2 ≤ vm.sp := h
    refine leaves_pass (Nat.not_lt.mpr h) (leaves_bind fun _ => leaves_bind fun _ => leaves_bind fun _ => ?_)
    refine leaves_stackSet fun _ => leaves_done ?_
    show vm.sp - 1 = vm.sp - 2 + 1
    omega
  | deref => exact leaves_pass (Nat.not_le.mpr h) loadTop_leaves
  | derefb =>
    refine leaves_pass (Nat.not_le.mpr h) (leaves_guard rfl (by decide) (leaves_ite loadTop_leaves ?_))
    exact leaves_ite loadTop_leaves (leaves_ite loadTop_leaves ⟨rfl, nofun⟩)
  | hset | hsetof =>
    exact leaves_pass (Nat.not_lt.mpr h) (leaves_bind fun _ => leaves_bind fun _ => heapSet_leaves)
  | puts => exact leaves_pass (Nat.not_lt.mpr h) (leaves_bind fun _ => leaves_bind fun _ => leaves_done rfl)
  | putc => exact leaves_pass (Nat.not_lt.mpr h) (leaves_bind fun _ => leaves_done rfl)

/-! ## Room -/

theorem le_after_native (inst : Opcode) (vm : Vm W) : depthAfter .native inst vm ≤ vm.sp + 1 := by
  simp only [depthAfter]
  split
  · split <;> omega
  · exact Nat.le_succ _

theorem depthAfter_le_peak {op : OpType} (hop : op.isControl = false) :
    depthAfter op inst vm ≤ peak vm.program.tables op inst vm.sp := by
  cases op with
  | jmp | jz | jnz | call | ret | halt | load | store => cases hop
  | native => exact le_after_native inst vm
  | _ => simp [peak, refusesFull, depthAfter, stackEffect, StackEffect.after] <;> omega

/-- An exception without its reason is one for want of room, where the instruction has its objects. -/
theorem SpuriousException.peak {op : OpType} (h : SpuriousException op inst vm)
    (hneeds : (stackEffect vm.program.tables op inst).needs ≤ vm.sp) :
    tvmStackCapacity < TileVm.peak vm.program.tables op inst vm.sp := by
  cases op with
  | swap =>
    have htwo : max 2 (inst.operand.ui32.toNat + 1) ≤ vm.sp := hneeds
    have hone : vm.sp = 1 := h.1
    omega
  | native =>
    obtain ⟨f, hf, h⟩ := h
    have hentry : vm.program.tables.cfun? inst.operand.ui32.toNat = some f := hf
    have hargs : f.acount ≤ vm.sp := by
      unfold stackEffect at hneeds
      rw [hentry] at hneeds
      exact hneeds
    have hfull : vm.sp = tvmStackCapacity := by
      split at h
      · exact h.1
      · exact h.resolve_left (Nat.not_lt.mpr hargs)
    exact Nat.lt_succ_of_le (Nat.le_of_eq hfull.symm)
  | add | sub | mult | div | mod | addf | subf | multf | divf | gt | gtf | lt | ltf | eq | eqf | ge | gef | le | lef | and | or =>
    exact Nat.lt_succ_of_le (Nat.le_of_eq h.2.symm)
  | _ => exact absurd h.1 (by decide)

/-- A stack overflow has its reason in the depth that the instruction needs room for. -/
theorem overflow_peak {op : OpType} {vm' : Vm W} (hop : op.isControl = false)
    (hneeds : (stackEffect vm.program.tables op inst).needs ≤ vm.sp)
    (h : tvmExecOp env op inst vm = .ok (.stackOverflow, vm')) :
    tvmStackCapacity < peak vm.program.tables op inst vm.sp ∨ tvmStackCapacity < vm.sp := by
  by_cases hsp : vm.sp ≤ tvmStackCapacity
  · by_cases hs : SpuriousException op inst vm
    · exact .inl (hs.peak hneeds)
    · have hraises : Raises _ _ (tvmExecOp env op inst vm) := tvmExecOp_raises hsp hs
      exact .inl (Nat.lt_of_lt_of_le ((hraises.of_ok h).1 rfl) (depthAfter_le_peak hop))
  · exact .inr (Nat.not_le.mp hsp)

theorem le_peak (tables : ProgramTables) (op : OpType) (inst : Opcode) (n : Nat) : n ≤ peak tables op inst n := by
  unfold peak
  split
  · exact Nat.le_succ n
  · exact Nat.le_max_left ..

/-! ## Moves -/

/-- A fault or a plain exception, a stack overflow under `full` only. -/
def RunStop.Plain (full : Prop) (e : RunStop) : Prop :=
  ∀ x, e = .exit x → x.isPlain = true ∧ (x = .stackOverflow → full)

section Moves

variable {tables : ProgramTables} {d : Data W} {l : Locals} {op : OpType} {full : Prop}

theorem RunStop.plain_fault (f : Fault) : RunStop.Plain full (.fault f) := nofun

theorem RunStop.plain_exit {x : TvmException} (h : x.isPlain = true) (hfull : x = .stackOverflow → full) :
    RunStop.Plain full (.exit x) := fun _ he => by
  cases he
  exact ⟨h, hfull⟩

/-- A move behind the instruction, to the depth `n`. -/
abbrev MovesOn (full : Prop) (n : Nat) (x : Except RunStop (TvmMove W)) : Prop :=
  Post (RunStop.Plain full) (fun a => ∃ d' l', a = .next d' l' ∧ d'.sp = n) x

theorem dataMove_leaves (hop : op.isControl = false) (h : (stackEffect tables op inst).needs ≤ d.sp) :
    MovesOn (tvmStackCapacity < peak tables op inst d.sp) ((stackEffect tables op inst).after d.sp)
      (dataMove env tables op inst d l) := by
  have hleaves : Leaves ((stackEffect tables op inst).after d.sp) (tvmExecOp env op inst (d.idle tables)) :=
    tvmExecOp_leaves hop h
  unfold dataMove dataOp
  cases hexec : tvmExecOp env op inst (d.idle tables) with
  | error f => exact RunStop.plain_fault f
  | ok r =>
    obtain ⟨hplain, hsp⟩ := hleaves.of_ok hexec
    show MovesOn _ _ (if r.1 ≠ .ok then _ else _)
    refine .ite (fun _ => RunStop.plain_exit hplain fun hover => ?_) fun hok => ?_
    · have hraise : tvmExecOp env op inst (d.idle tables) = .ok (.stackOverflow, r.2) := by rw [hexec, ← hover]
      have hneeds : (stackEffect (d.idle tables).program.tables op inst).needs ≤ (d.idle tables).sp := h
      have hpeak : tvmStackCapacity < peak tables op inst d.sp ∨ tvmStackCapacity < d.sp := overflow_peak hop hneeds hraise
      exact hpeak.elim id fun hlt => Nat.lt_of_lt_of_le hlt (le_peak ..)
    · exact ⟨_, l, rfl, hsp (Decidable.not_not.1 hok)⟩

theorem load_bind {α β : Type} {n i : Nat} {a : ArrayName} {cells : CArray α n} {f : α → Except RunStop β}
    {Q : β → Prop} (h : ∀ o, Post (RunStop.Plain full) Q (f o)) :
    Post (RunStop.Plain full) Q (cells.load (.fault (.outOfBounds a)) i >>= f) := by
  refine .bind (.intro (fun e he => ?_) fun o _ => h o)
  rw [(CArray.load_error he).1]
  exact RunStop.plain_fault _

theorem loadMove_leaves : MovesOn (tvmStackCapacity < d.sp + 1) (d.sp - 0 + 1) (loadMove inst d l) :=
  .ite (fun hfull => RunStop.plain_exit rfl fun _ => Nat.lt_succ_of_le hfull) fun _ =>
    .ite (fun _ => RunStop.plain_exit rfl nofun) fun _ => load_bind fun _ => ⟨_, _, rfl, rfl⟩

theorem storeMove_leaves (h : 1 ≤ d.sp) : MovesOn full (d.sp - 1 + 0) (storeMove inst d l) :=
  .ite (fun hc => absurd hc (Nat.not_le.mpr h)) fun _ => .ite (fun _ => RunStop.plain_exit rfl nofun) fun _ =>
    load_bind fun _ => ⟨_, _, rfl, rfl⟩

/-- A conditional jump takes the word it looks at. -/
theorem condMove_leaves {taken : BitVec 32 → Bool} (h : 1 ≤ d.sp) :
    Post (RunStop.Plain full) (fun a => ∃ t d', a = .branch t d' ∧ d'.sp = d.sp - 1) (condMove taken d) :=
  .ite (fun hc => absurd h (Nat.not_le.mpr hc)) fun _ => load_bind fun _ => ⟨_, _, rfl, rfl⟩

end Moves

/-! ## Depths that fit together -/

/-- Depths for the instructions of the main part and of the procs, and the contracts of the procs. -/
structure DepthMap where
  args : Nat → Nat
  results : Nat → Nat
  depth : Option Nat → Nat → Option Nat

/-- Bounds for the main part and for each proc: the slots that it needs, its arguments and the procs that it calls included,
and the calls that are open above it. -/
structure StackBounds where
  slots : Option Nat → Nat
  calls : Option Nat → Nat

/-- An activation with the depth `g.1` below its arguments, at the height `g.2`, is within the capacities. -/
structure StackBounds.Room (b : StackBounds) (owner : Option Nat) (g : Nat × Nat) : Prop where
  slots : g.1 + b.slots owner ≤ tvmStackCapacity
  calls : g.2 + b.calls owner ≤ returnStackCapacity

namespace DepthMap

/-- The depth `n` at `ip` fits the depths where the instruction goes on. -/
def FlowFits (m : DepthMap) (p : TvmProgram) (owner : Option Nat) (ip n : Nat) (op : OpType) (inst : Opcode) : Prop :=
  let target := inst.operand.ui32.toNat
  match op with
  | .jmp => target < p.size ∧ m.depth owner target = some n
  | .jz | .jnz => target < p.size ∧ m.depth owner target = some (n - 1) ∧ m.depth owner (ip + 1) = some (n - 1)
  | .call =>
    target < p.size ∧ m.args target ≤ n ∧ m.depth (some target) target = some (m.args target) ∧
      m.depth owner (ip + 1) = some (n - m.args target + m.results target)
  | .ret => ∃ k, owner = some k ∧ n = m.results k
  | .halt => True
  | op => m.depth owner (ip + 1) = some ((stackEffect p.tables op inst).after n)

/-- The depths fit together, from the first instruction on. The cell behind the code is executed, too. -/
structure Fits (m : DepthMap) (p : TvmProgram) : Prop where
  start : m.depth none 0 = some 0
  inst : ∀ owner ip n, m.depth owner ip = some n → ip ≤ p.size → ∀ c, p.code.get? ip = some c →
    ∃ op, OpType.ofNat? c.type.toNat = some op ∧ (stackEffect p.tables op c).needs ≤ n ∧ m.FlowFits p owner ip n op c

/-- The bounds are kept by every instruction, and a call asks for the room of the proc that it calls. -/
structure Within (m : DepthMap) (b : StackBounds) (p : TvmProgram) : Prop where
  start : b.Room none (0, 0)
  inst : ∀ owner ip n, m.depth owner ip = some n → ip ≤ p.size → ∀ c, p.code.get? ip = some c →
    ∀ op, OpType.ofNat? c.type.toNat = some op → peak p.tables op c n ≤ b.slots owner
  call : ∀ owner ip n, m.depth owner ip = some n → ip ≤ p.size → ∀ c, p.code.get? ip = some c →
    OpType.ofNat? c.type.toNat = some .call →
    n - m.args c.operand.ui32.toNat + b.slots (some c.operand.ui32.toNat) ≤ b.slots owner ∧
      b.calls (some c.operand.ui32.toNat) < b.calls owner

/-- The logical variables of a proc are the depth below its arguments and its height. Under `B`, the bounds `b` are kept,
too. -/
def outline (m : DepthMap) (b : StackBounds) (B : Prop) (W : Type) : TvmOutline (Nat × Nat) W where
  height g h := g.2 = h
  pre k g d := m.depth (some k) k = some (m.args k) ∧ d.sp = g.1 + m.args k ∧ (B → b.Room (some k) g)
  post k g d := d.sp = g.1 + m.results k
  holds owner ip g d _ := (B → b.Room owner g) ∧ ∃ n, m.depth owner ip = some n ∧ d.sp = g.1 + n
  final _ := True
  fails e := ∀ x, e = .exit x → x.isMisfit = false ∧ (B → x.isOverflow = false)

theorem takes_le (tables : ProgramTables) (op : OpType) (inst : Opcode) :
    (stackEffect tables op inst).takes ≤ (stackEffect tables op inst).needs := by
  unfold stackEffect
  cases op with
  | native =>
    dsimp only
    split
    · exact Nat.le_refl _
    · exact Nat.le_refl 0
  | _ => exact by simp

/-- An effect is the same above every base. -/
theorem after_add {tables : ProgramTables} {op : OpType} {inst : Opcode} {n : Nat}
    (h : (stackEffect tables op inst).needs ≤ n) (base : Nat) :
    (stackEffect tables op inst).after (base + n) = base + (stackEffect tables op inst).after n := by
  have htakes := takes_le tables op inst
  unfold StackEffect.after
  omega

theorem peak_add {tables : ProgramTables} {op : OpType} {inst : Opcode} {n : Nat}
    (h : (stackEffect tables op inst).needs ≤ n) (base : Nat) :
    peak tables op inst (base + n) = base + peak tables op inst n := by
  unfold peak
  rw [after_add h base]
  split <;> omega

section Verifies

variable {m : DepthMap} {b : StackBounds} {B : Prop} {p : TvmProgram} {c : Opcode} {owner : Option Nat} {ip n h : Nat}
  {g : Nat × Nat} {d : Data W} {l : Locals} {op : OpType}

/-- What a plain stop means for the outline. -/
theorem fails_of_plain {full : Prop} {e : RunStop} (he : RunStop.Plain full e) (hroom : B → ¬ full) :
    (m.outline b B W).fails e := by
  intro x hx
  obtain ⟨hplain, hfull⟩ := he x hx
  refine ⟨?_, fun hB => ?_⟩
  · revert hplain
    cases x <;> decide
  · have hover : x ≠ .stackOverflow := fun hx => hroom hB (hfull hx)
    revert hplain hover
    cases x <;> decide

theorem moveOk_next {a : TvmMove W} (hip : ip < tvmProgramCapacity) (hroom : B → b.Room owner g)
    (hdepth : m.depth owner (ip + 1) = some n) (ha : ∃ d' l', a = .next d' l' ∧ d'.sp = g.1 + n) :
    (m.outline b B W).MoveOk (tvmMeaning env p.tables) p.toCode owner ip g h l a := by
  obtain ⟨d', l', rfl, hsp⟩ := ha
  refine ⟨hroom, n, ?_, hsp⟩
  show m.depth owner (wordSucc ip) = some n
  rw [wordSucc_of_lt hip]
  exact hdepth

theorem toCode_targets (hc : p.code.get? ip = some c) (hop : OpType.ofNat? c.type.toNat = some op)
    (htakes : op.takesTarget = true) (htarget : c.operand.ui32.toNat < p.size) :
    p.toCode.target ip = some c.operand.ui32.toNat := by
  have htakes' : c.takesTarget = true := by
    unfold Opcode.takesTarget
    rw [hop]
    exact htakes
  simp only [TvmProgram.toCode, hc, htakes', Bool.true_and, decide_eq_true htarget, if_true]

theorem moveOk_branch {t : Bool} {d' : Data W} (hip : ip < tvmProgramCapacity) (hc : p.code.get? ip = some c)
    (hop : OpType.ofNat? c.type.toNat = some op) (htakes : op.takesTarget = true) (htarget : c.operand.ui32.toNat < p.size)
    (hroom : B → b.Room owner g) (hjump : m.depth owner c.operand.ui32.toNat = some n)
    (hnext : t = false → m.depth owner (ip + 1) = some n) (hsp : d'.sp = g.1 + n) :
    (m.outline b B W).MoveOk (tvmMeaning env p.tables) p.toCode owner ip g h l (.branch t d') := by
  unfold Activation.Outline.MoveOk
  rw [toCode_targets hc hop htakes htarget]
  refine ⟨hroom, n, ?_, hsp⟩
  cases t with
  | true => exact hjump
  | false =>
    show m.depth owner (wordSucc ip) = some n
    rw [wordSucc_of_lt hip]
    exact hnext rfl

/-- A call that the bounds allow is not one too many. -/
theorem moveOk_call (hip : ip < tvmProgramCapacity) (hc : p.code.get? ip = some c)
    (hop : OpType.ofNat? c.type.toNat = some .call) (hflow : m.FlowFits p owner ip n .call c) (hroom : B → b.Room owner g)
    (hcall : B → n - m.args c.operand.ui32.toNat + b.slots (some c.operand.ui32.toNat) ≤ b.slots owner ∧
      b.calls (some c.operand.ui32.toNat) < b.calls owner) (hheight : g.2 = h) (hsp : d.sp = g.1 + n) :
    (m.outline b B W).MoveOk (tvmMeaning env p.tables) p.toCode owner ip g h l (.call d) := by
  obtain ⟨htarget, hargs, hentry, hnext⟩ := hflow
  simp only [Activation.Outline.MoveOk, toCode_targets hc hop rfl htarget]
  split
  · rename_i hdeep
    have hdeep : returnStackCapacity ≤ h := hdeep
    rintro x ⟨⟩
    refine ⟨rfl, fun hB => ?_⟩
    have hlow := (hroom hB).calls
    have hless := (hcall hB).2
    omega
  · refine ⟨(g.1 + (n - m.args c.operand.ui32.toNat), h + 1), rfl, ⟨hentry, ?_, fun hB => ⟨?_, ?_⟩⟩, fun d' hd' => ?_⟩
    · show d.sp = g.1 + (n - m.args c.operand.ui32.toNat) + m.args c.operand.ui32.toNat
      omega
    · have hslots := (hroom hB).slots
      have hless := (hcall hB).1
      dsimp only
      omega
    · have hcalls := (hroom hB).calls
      have hless := (hcall hB).2
      dsimp only
      omega
    · refine ⟨hroom, _, ?_, hd'.trans (Nat.add_assoc _ _ _)⟩
      show m.depth owner (wordSucc ip) = _
      rw [wordSucc_of_lt hip]
      exact hnext

/-- An instruction without a target is executed as it stands. -/
theorem withoutTarget_plain (hop : OpType.ofNat? c.type.toNat = some op) (h : op.takesTarget = false) : c.withoutTarget = c := by
  unfold Opcode.withoutTarget Opcode.takesTarget
  rw [hop, Option.any_some, h]
  rfl

/-- Every instruction keeps to the depths. -/
theorem inst_moves (env : Env W) (hip : ip < tvmProgramCapacity) (hc : p.code.get? ip = some c)
    (hop : OpType.ofNat? c.type.toNat = some op) (hneeds : (stackEffect p.tables op c).needs ≤ n)
    (hflow : m.FlowFits p owner ip n op c) (hroom : B → b.Room owner g)
    (hpeak : B → peak p.tables op c n ≤ b.slots owner)
    (hcall : B → op = .call → n - m.args c.operand.ui32.toNat + b.slots (some c.operand.ui32.toNat) ≤ b.slots owner ∧
      b.calls (some c.operand.ui32.toNat) < b.calls owner) (hheight : g.2 = h) (hsp : d.sp = g.1 + n) :
    Post (m.outline b B W).fails ((m.outline b B W).MoveOk (tvmMeaning env p.tables) p.toCode owner ip g h l)
      (tvmMove env p.tables c.withoutTarget d l) := by
  have hneeds' : (stackEffect p.tables op c).needs ≤ d.sp := by omega
  have hafter : (stackEffect p.tables op c).after d.sp = g.1 + (stackEffect p.tables op c).after n := by
    rw [hsp]
    exact after_add hneeds g.1
  have hfull : B → ¬ tvmStackCapacity < peak p.tables op c d.sp := fun hB => by
    have hslots := (hroom hB).slots
    have hless := hpeak hB
    rw [hsp, peak_add hneeds g.1]
    omega
  -- an instruction that goes on behind itself
  have hon {x : Except RunStop (TvmMove W)}
      (hx : MovesOn (tvmStackCapacity < peak p.tables op c d.sp) ((stackEffect p.tables op c).after d.sp) x)
      (hdepth : m.depth owner (ip + 1) = some ((stackEffect p.tables op c).after n)) :
      Post (m.outline b B W).fails ((m.outline b B W).MoveOk (tvmMeaning env p.tables) p.toCode owner ip g h l) x :=
    hx.mono (fun _ he => fails_of_plain he hfull) fun a ha => moveOk_next hip hroom hdepth (by rwa [hafter] at ha)
  unfold tvmMove
  rw [withoutTarget_type, hop]
  dsimp only
  cases op with
  | jmp => exact moveOk_branch (h := h) hip hc hop rfl hflow.1 hroom hflow.2 nofun hsp
  | jz | jnz =>
    have hn : 1 ≤ n := hneeds
    refine (condMove_leaves (show 1 ≤ d.sp from hneeds')).mono (fun _ he => fails_of_plain he hfull) fun a ha => ?_
    obtain ⟨t, d', rfl, hsp'⟩ := ha
    exact moveOk_branch (h := h) hip hc hop rfl hflow.1 hroom hflow.2.1 (fun _ => hflow.2.2) (by omega)
  | call => exact moveOk_call hip hc hop hflow hroom (fun hB => hcall hB rfl) hheight hsp
  | ret =>
    obtain ⟨k, rfl, rfl⟩ := hflow
    exact hsp
  | halt => exact trivial
  | load =>
    rw [withoutTarget_plain hop rfl]
    exact hon (loadMove_leaves.mono (fun _ he x hx => ⟨(he x hx).1, fun hover => Nat.lt_of_lt_of_le ((he x hx).2 hover)
      (Nat.le_max_right ..)⟩) fun _ ha => ha) hflow
  | store =>
    rw [withoutTarget_plain hop rfl]
    exact hon (storeMove_leaves hneeds') hflow
  | _ =>
    rw [withoutTarget_plain hop rfl]
    exact hon (dataMove_leaves rfl hneeds') hflow

/-- Depths that fit together are a proof outline, and so are bounds that are kept. -/
theorem Fits.verifies (hm : m.Fits p) (hb : B → m.Within b p) (env : Env W) :
    (m.outline b B W).Verifies (tvmMeaning env p.tables) p.toCode := by
  constructor
  · rintro k g d ⟨hentry, hsp, hroom⟩
    exact ⟨hroom, m.args k, hentry, hsp⟩
  · rintro owner ip g h d l hheight ⟨hroom, n, hn, hsp⟩ hin
    have hle : ip ≤ p.size := of_decide_eq_true hin
    simp only [TvmProgram.toCode]
    cases hfetch : p.fetch ip with
    | error f =>
      intro x hx
      cases hx
    | ok c =>
      have hc : p.code.get? ip = some c := CArray.load_ok.1 hfetch
      obtain ⟨op, hop, hneeds, hflow⟩ := hm.inst owner ip n hn hle c hc
      refine inst_moves env (CArray.get?_lt hc) hc hop hneeds hflow hroom (fun hB => ?_) (fun hB hcall => ?_) hheight hsp
      · exact (hb hB).inst owner ip n hn hle c hc op hop
      · rw [hcall] at hop
        exact (hb hB).call owner ip n hn hle c hc hop

end Verifies

end DepthMap

/-! ## Runs -/

/-- No run raises an exception that the depths exclude. -/
theorem fits_run {p : TvmProgram} {m : DepthMap} {b : StackBounds} {B : Prop} {world : W} {e : TvmException}
    (hal : env.frames.Roomy) (hinit : tvmInit env p world = .ok vm) (hm : m.Fits p) (hb : B → m.Within b p) (fuel : Nat)
    (he : tvmRun env fuel vm = .error (.fault (.exit e))) : e.isMisfit = false ∧ (B → e.isOverflow = false) := by
  have hstart : (m.outline b B W).holds none 0 (0, 0) (.initial world) (.fill ObjectT.zero) :=
    ⟨fun hB => (hb hB).start, 0, hm.start, rfl⟩
  have hheight : (m.outline b B W).height (0, 0) 0 := rfl
  exact (outline_run hal hinit (hm.verifies hb env) hheight hstart fuel).of_error he (.exit e) rfl e rfl

/-- The proc of `countdown` has one argument and one result. -/
def countdownDepths : DepthMap where
  args _ := 1
  results _ := 1
  depth owner ip :=
    match owner, ip with
    | none, 0 => some 0
    | none, 1 => some 1
    | none, 2 => some 1
    | some 3, 3 => some 1
    | some 3, 4 => some 2
    | some 3, 5 => some 1
    | some 3, 6 => some 1
    | some 3, 7 => some 1
    | _, _ => none

theorem countdownDepths_fits (n : BitVec 64) : countdownDepths.Fits (countdown n) := by
  refine ⟨rfl, fun owner ip k hk hip c hc => ?_⟩
  unfold countdownDepths at hk
  dsimp only at hk
  split at hk
  all_goals cases hk
  all_goals cases hc
  · exact ⟨.push, rfl, Nat.le_refl _, rfl⟩
  · exact ⟨.call, rfl, Nat.zero_le _, (by decide : 3 < 8), Nat.le_refl _, rfl, rfl⟩
  · exact ⟨.halt, rfl, Nat.zero_le _, trivial⟩
  · exact ⟨.dup, rfl, Nat.le_refl _, rfl⟩
  · exact ⟨.jz, rfl, Nat.le_succ _, (by decide : 7 < 8), rfl, rfl⟩
  · exact ⟨.dec, rfl, Nat.le_refl _, rfl⟩
  · exact ⟨.call, rfl, Nat.zero_le _, (by decide : 3 < 8), Nat.le_refl _, rfl, rfl⟩
  · exact ⟨.ret, rfl, Nat.zero_le _, 3, rfl, rfl⟩

/-- `push n`, `call 3`, `hlt`; and a proc that adds its argument to itself. -/
def twice (n : BitVec 64) : TvmProgram :=
  let plain (op : OpType) : Opcode := ⟨op.code, .zero⟩
  { TvmProgram.zero with
    code := TvmProgram.zero.code.putAll 0
      [⟨OpType.push.code, ⟨StackObjType.number.code, n⟩⟩, ⟨OpType.call.code, ⟨StackObjType.vmAddress.code, 3⟩⟩,
        plain .halt, plain .dup, plain .add, plain .ret]
    size := 6 }

def twiceDepths : DepthMap where
  args _ := 1
  results _ := 1
  depth owner ip :=
    match owner, ip with
    | none, 0 => some 0
    | none, 1 => some 1
    | none, 2 => some 1
    | some 3, 3 => some 1
    | some 3, 4 => some 2
    | some 3, 5 => some 1
    | _, _ => none

/-- `add` refuses a full stack, so that the proc needs a slot above its two objects. -/
def twiceBounds : StackBounds where
  slots _ := 3
  calls owner := if owner = none then 1 else 0

theorem twiceDepths_fits (n : BitVec 64) : twiceDepths.Fits (twice n) := by
  refine ⟨rfl, fun owner ip k hk hip c hc => ?_⟩
  unfold twiceDepths at hk
  dsimp only at hk
  split at hk
  all_goals cases hk
  all_goals cases hc
  · exact ⟨.push, rfl, Nat.le_refl _, rfl⟩
  · exact ⟨.call, rfl, Nat.zero_le _, (by decide : 3 < 6), Nat.le_refl _, rfl, rfl⟩
  · exact ⟨.halt, rfl, Nat.zero_le _, trivial⟩
  · exact ⟨.dup, rfl, Nat.le_refl _, rfl⟩
  · exact ⟨.add, rfl, Nat.le_refl _, rfl⟩
  · exact ⟨.ret, rfl, Nat.zero_le _, 3, rfl, rfl⟩

theorem twiceBounds_within (n : BitVec 64) : twiceDepths.Within twiceBounds (twice n) := by
  refine ⟨⟨by decide, by decide⟩, fun owner ip k hk hip c hc op hop => ?_, fun owner ip k hk hip c hc hop => ?_⟩
  · unfold twiceDepths at hk
    dsimp only at hk
    split at hk
    all_goals cases hk
    all_goals cases hc
    all_goals cases hop
    · exact (by decide : 1 ≤ 3)
    · exact (by decide : 1 ≤ 3)
    · exact (by decide : 1 ≤ 3)
    · exact (by decide : 2 ≤ 3)
    · exact Nat.le_refl 3
    · exact (by decide : 1 ≤ 3)
  · unfold twiceDepths at hk
    dsimp only at hk
    split at hk
    all_goals cases hk
    all_goals cases hc
    all_goals cases hop
    exact ⟨Nat.le_refl 3, Nat.zero_lt_one⟩

end TileVm
