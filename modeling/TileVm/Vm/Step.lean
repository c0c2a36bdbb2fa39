/-
What one step can do. Every branch of the switch either raises an exception in the state it was
given, or succeeds with one of six effects on the control state; and in a ready state no branch
faults on the machine's own structures. Everything about runs is derived from this.
-/
import TileVm.Vm.Exec

namespace TileVm

open Except (Post)

variable {W : Type}

/-! ## Ready states -/

/-- The faults on the machine's own arrays and frames. The others come from the data a step is
given: addresses, native functions, the constant table, the operands of an arithmetic opcode. -/
def Fault.internal : Fault → Bool
  | .outOfBounds .stack => true
  | .outOfBounds .returnStack => true
  | .outOfBounds .localVars => true
  | .outOfBounds .globalVars => true
  | .outOfBounds .vargs => true
  | .useAfterFree => true
  | .badFree => true
  | .wildLink => true
  | _ => false

/-- The current frame has a live caller frame, and each points at the other. -/
def Linked (fs : FrameStore) (frame : Addr) : Prop :=
  ∃ n p q, fs frame = some n ∧ n.prev = some p ∧ fs p = some q ∧ q.next = some frame

/-- Every function of the metadata has at most 64 arguments. -/
def SmallArgs (p : TvmProgram) : Prop :=
  ∀ i m id f, p.metadata.modules.get? i = some m → id < m.cfunCount → m.cfuns.get? id = some f → f.acount ≤ 64

/-- What a step relies on. -/
structure Ready (vm : Vm W) : Prop where
  sp : vm.sp ≤ tvmStackCapacity
  rsp : vm.rsp ≤ returnStackCapacity
  current : ∃ n, vm.frames vm.frame = some n
  caller : 0 < vm.rsp → Linked vm.frames vm.frame
  acount : SmallArgs vm.program

/-- `x`, run on `vm`, returns a value in `Q` or faults; in a ready state the fault is not internal. -/
abbrev Meets {α : Type} (vm : Vm W) (Q : α → Prop) (x : Except Fault α) : Prop :=
  Post (fun f => Ready vm → f.internal = false) Q x

/-! ## Effects -/

/-- `vm'` has the control state of `vm`: calls, frames, program, `ip` and the halted flag. -/
structure SameControl (vm vm' : Vm W) : Prop where
  program : vm'.program = vm.program
  returnStack : vm'.returnStack = vm.returnStack
  rsp : vm'.rsp = vm.rsp
  frame : vm'.frame = vm.frame
  frames : vm'.frames = vm.frames
  ip : vm'.ip = vm.ip
  halted : vm'.halted = vm.halted
  sp : vm.sp ≤ tvmStackCapacity → vm'.sp ≤ tvmStackCapacity

theorem SameControl.refl (vm : Vm W) : SameControl vm vm := ⟨rfl, rfl, rfl, rfl, rfl, rfl, rfl, id⟩

/-- A change of the operand stack, the globals, the heap, the output and the native library is
no change of the control state. -/
theorem SameControl.data (vm : Vm W) {stack : CArray ObjectT tvmStackCapacity} {sp : Nat}
    {globalVars : CArray ObjectT tvmMaxLocalVar} {heap : TgcHeap} {out : List Byte} {world : W}
    (h : vm.sp ≤ tvmStackCapacity → sp ≤ tvmStackCapacity) :
    SameControl vm { vm with stack, sp, globalVars, heap, out, world } :=
  ⟨rfl, rfl, rfl, rfl, rfl, rfl, rfl, h⟩

/-- The word on top of the stack, which a conditional jump tests. -/
def Vm.top (vm : Vm W) : BitVec 32 := ((vm.stack.get? (vm.sp - 1)).getD ObjectT.zero).ui32

/-- A successful `op` continues with the next instruction. -/
def fallsThrough (op : OpType) (vm : Vm W) : Bool :=
  match op with
  | .jmp | .call | .ret | .halt => false
  | .jz => !(vm.top == 0)
  | .jnz => !(vm.top != 0)
  | _ => true

/-- The current frame replaced. -/
def Vm.putFrame (vm : Vm W) (n : TvmFrame) : Vm W := { vm with frames := vm.frames.set vm.frame n }

/-- The effects of a successful step. -/
inductive Effect (al : FrameAllocator) (op : OpType) (inst : Opcode) (vm : Vm W) : Vm W → Prop where
  | next {vm' : Vm W} (falls : fallsThrough op vm = true) (same : SameControl vm vm') :
      Effect al op inst vm vm'.next
  | store {vm' : Vm W} {n : TvmFrame} {o : ObjectT} (is : op = .store) (same : SameControl vm vm')
      (current : vm.frames vm.frame = some n) :
      Effect al op inst vm (vm'.putFrame { n with localVars := n.localVars.put inst.operand.ui32.toNat o }).next
  | jump {vm' : Vm W} (is : op = .jmp ∨ op = .jz ∨ op = .jnz) (falls : fallsThrough op vm = false)
      (same : SameControl vm vm') (target : inst.operand.ui32.toNat < vm.program.size) :
      Effect al op inst vm { vm' with ip := inst.operand.ui32.toNat }
  | call {frame : Addr} {frames : FrameStore} (is : op = .call) (room : vm.rsp < returnStackCapacity)
      (target : inst.operand.ui32.toNat < vm.program.size)
      (enter : tvmFrameNext al vm.frames vm.frame = .ok (frame, frames)) :
      Effect al op inst vm
        { vm with
          returnStack := vm.returnStack.put vm.rsp (wordSucc vm.ip), rsp := vm.rsp + 1,
          ip := inst.operand.ui32.toNat, frame, frames }
  | ret {ip : Nat} {frame : Addr} {frames : FrameStore} (is : op = .ret) (deep : 0 < vm.rsp)
      (saved : vm.returnStack.get? (vm.rsp - 1) = some ip)
      (leave : tvmFramePrev vm.frames vm.frame = .ok (frame, frames)) :
      Effect al op inst vm { vm with rsp := vm.rsp - 1, ip, frame, frames }
  | halt (is : op = .halt) : Effect al op inst vm ({ vm with halted := true } : Vm W).next

/-- What `op` may return: an exception and the state it was given, or success and an effect. -/
def Result (al : FrameAllocator) (op : OpType) (inst : Opcode) (vm : Vm W) (r : Ret W) : Prop :=
  (r.1 ≠ .ok ∧ r.2 = vm) ∨ (r.1 = .ok ∧ Effect al op inst vm r.2)

variable {al : FrameAllocator} {op : OpType} {inst : Opcode} {vm : Vm W}

/-! ## Rules -/

theorem raise_meets {e : TvmException} (he : e ≠ .ok) : Meets vm (Result al op inst vm) (raise e vm) :=
  .inl ⟨he, rfl⟩

/-- A guard at the head of a branch. -/
theorem guard_meets {c : Prop} [Decidable c] {e : TvmException} {x : Except Fault (Ret W)} (he : e ≠ .ok)
    (h : ¬ c → Meets vm (Result al op inst vm) x) :
    Meets vm (Result al op inst vm) (if c then raise e vm else x) :=
  Post.ite (fun _ => raise_meets he) h

theorem stackAt_meets {vm' : Vm W} {i : Nat} {Q : ObjectT → Prop} (hi : Ready vm → i < tvmStackCapacity)
    (h : ∀ o, vm'.stack.get? i = some o → Q o) : Meets vm Q (vm'.stackAt i) :=
  CArray.load_post (fun hle hr => absurd (hi hr) (by omega)) h

theorem stackSet_meets {vm' : Vm W} {i : Nat} {o : ObjectT} {Q : Vm W → Prop}
    (hi : Ready vm → i < tvmStackCapacity) (h : ∀ stack, Q { vm' with stack }) :
    Meets vm Q (vm'.stackSet i o) := by
  unfold Vm.stackSet CArray.store
  split
  · exact h _
  · intro hr; exact absurd (hi hr) ‹_›

/-- The last step of a branch that falls through. -/
theorem next_meets {vm' : Vm W} (hf : fallsThrough op vm = true) (h : SameControl vm vm') :
    Meets vm (Result al op inst vm) (done vm'.next) :=
  .inr ⟨rfl, .next hf h⟩

/-- `x` faults on nothing of the machine's own. -/
def External {α : Type} (x : Except Fault α) : Prop := Post (fun e => e.internal = false) (fun _ => True) x

theorem external_meets {α : Type} {x : Except Fault α} {Q : α → Prop} (h : External x) (hQ : ∀ a, Q a) :
    Meets vm Q x :=
  h.mono (fun _ he _ => he) fun a _ => hQ a

theorem word2_external (f : BitVec 32 → BitVec 32 → BitVec 32) (a b : ObjectT) : External (word2 f a b) :=
  Post.ok trivial

theorem test2_external (f : BitVec 32 → BitVec 32 → Bool) (a b : ObjectT) : External (test2 f a b) :=
  Post.ok trivial

theorem divWord_external (f : BitVec 32 → BitVec 32 → BitVec 32) (a b : ObjectT) : External (divWord f a b) :=
  Post.ite (fun _ => rfl) fun _ => trivial

theorem shiftWord_external (f : BitVec 32 → Nat → BitVec 32) (a b : ObjectT) : External (shiftWord f a b) :=
  Post.ite (fun _ => rfl) fun _ => trivial

/-! ## Families -/

section Families

variable {f : ObjectT → ObjectT → Except Fault ObjectT}

theorem applyTwo_meets (hf : ∀ a b, External (f a b)) (hfall : fallsThrough op vm = true) (h2 : ¬ vm.sp < 2) :
    Meets vm (Result al op inst vm) (applyTwo f vm) := by
  unfold applyTwo
  refine Post.bind (stackAt_meets (fun hr => ?_) fun b _ => Post.bind (stackAt_meets (fun hr => ?_) fun a _ => ?_))
  · have := hr.sp; omega
  · have := hr.sp; omega
  refine Post.bind (external_meets (hf a b) fun c => Post.bind (stackSet_meets (fun hr => ?_) fun stack => ?_))
  · have := hr.sp; omega
  · exact next_meets hfall (.data vm fun h => show vm.sp - 1 ≤ _ by omega)

theorem binaryOp_meets (hf : ∀ a b, External (f a b)) (hfall : fallsThrough op vm = true) :
    Meets vm (Result al op inst vm) (binaryOp f vm) :=
  guard_meets (by decide) fun h2 => applyTwo_meets hf hfall h2

theorem arithOp_meets (hf : ∀ a b, External (f a b)) (hfall : fallsThrough op vm = true) :
    Meets vm (Result al op inst vm) (arithOp f vm) :=
  guard_meets (by decide) fun h2 => guard_meets (by decide) fun _ => applyTwo_meets hf hfall h2

theorem divOp_meets (hf : ∀ a b, External (f a b)) (hfall : fallsThrough op vm = true) :
    Meets vm (Result al op inst vm) (divOp f vm) := by
  refine guard_meets (by decide) fun h2 => guard_meets (by decide) fun _ => ?_
  refine Post.bind (stackAt_meets (fun hr => ?_) fun b _ => ?_)
  · have := hr.sp; omega
  · exact guard_meets (by decide) fun _ => applyTwo_meets hf hfall h2

theorem unaryOp_meets {f : ObjectT → ObjectT} (hfall : fallsThrough op vm = true) :
    Meets vm (Result al op inst vm) (unaryOp f vm) := by
  refine guard_meets (by decide) fun h1 => ?_
  refine Post.bind (stackAt_meets (fun hr => ?_) fun a _ => Post.bind (stackSet_meets (fun hr => ?_) fun stack => ?_))
  · have := hr.sp; omega
  · have := hr.sp; omega
  · exact next_meets hfall (.data vm id)

/-- A push of one object over the slot above the stack. -/
theorem pushWith_ok {g : ObjectT → ObjectT} {old : ObjectT} (hold : vm.stack.get? vm.sp = some old) :
    pushWith (fun old => .ok (g old)) vm = done ({ vm with stack := vm.stack.put vm.sp (g old) }.setSp (vm.sp + 1)).next := by
  have hread : vm.stackAt vm.sp = .ok old := CArray.load_ok.2 hold
  unfold pushWith
  rw [Except.bind_of_ok hread, Except.bind_of_ok rfl]
  unfold Vm.stackSet CArray.store
  rw [if_pos (CArray.get?_lt hold)]
  rfl

/-- A push is the end of a branch that has changed no control state before it. -/
theorem pushWith_meets {f : ObjectT → Except Fault ObjectT} {vm' : Vm W} (hf : ∀ o, External (f o))
    (hfall : fallsThrough op vm = true) (h : SameControl vm vm') (hsp : vm'.sp < tvmStackCapacity) :
    Meets vm (Result al op inst vm) (pushWith f vm') := by
  unfold pushWith
  refine Post.bind (stackAt_meets (fun _ => hsp) fun old _ => ?_)
  refine Post.bind (external_meets (hf old) fun o => Post.bind (stackSet_meets (fun _ => hsp) fun stack => ?_))
  refine next_meets hfall ⟨h.program, h.returnStack, h.rsp, h.frame, h.frames, h.ip, h.halted, fun _ => ?_⟩
  exact show vm'.sp + 1 ≤ tvmStackCapacity by omega

theorem condJump_meets (taken : BitVec 32 → Bool) (hop : op = .jz ∨ op = .jnz)
    (hfall : fallsThrough op vm = !(taken vm.top)) :
    Meets vm (Result al op inst vm) (condJump taken inst vm) := by
  refine guard_meets (by decide) fun h1 => guard_meets (by decide) fun ht => ?_
  refine Post.bind (stackAt_meets (fun hr => ?_) fun o ho => ?_)
  · have := hr.sp; show vm.sp - 1 < _; omega
  have htop : vm.top = o.ui32 := by
    unfold Vm.top
    rw [show vm.stack.get? (vm.sp - 1) = some o from ho]; rfl
  have hsame : SameControl vm (vm.setSp (vm.sp - 1)) := .data vm fun h => by omega
  rw [htop] at hfall
  refine Post.ite (fun hc => ?_) fun hc => ?_
  · exact .inr ⟨rfl, .jump (.inr hop) (by rw [hfall, hc]; rfl) hsame (by omega)⟩
  · exact next_meets (by rw [hfall]; simpa using hc) hsame

end Families

/-! ## Control opcodes -/

theorem frameNext_meets {Q : Addr × FrameStore → Prop}
    (h : ∀ r, tvmFrameNext al vm.frames vm.frame = .ok r → Q r) :
    Meets vm Q (tvmFrameNext al vm.frames vm.frame) := by
  refine Post.intro (fun e he hr => ?_) h
  obtain ⟨n, hn⟩ := hr.current
  unfold tvmFrameNext at he
  rw [Except.bind_of_ok (FrameStore.load_ok.2 hn)] at he
  unfold tvmFrameInit at he
  split at he
  · rename_i a ha
    have hne : a ≠ vm.frame := fun h => by
      have := (al.fresh _ _ ha).1
      rw [h, hn] at this; cases this
    rw [Except.bind_of_ok rfl] at he
    dsimp only at he
    rw [Except.bind_of_ok (FrameStore.load_ok.2 (by rw [FrameStore.set_of_ne _ _ hne, FrameStore.set_self]))] at he
    cases he
  · rw [Except.bind_of_error rfl] at he
    cases he; rfl

theorem framePrev_meets {Q : Addr × FrameStore → Prop} (hd : 0 < vm.rsp)
    (h : ∀ r, tvmFramePrev vm.frames vm.frame = .ok r → Q r) :
    Meets vm Q (tvmFramePrev vm.frames vm.frame) := by
  refine Post.intro (fun e he hr => ?_) h
  obtain ⟨n, p, q, hn, hp, hq, hnext⟩ := hr.caller hd
  unfold tvmFramePrev at he
  rw [Except.bind_of_ok (FrameStore.load_ok.2 hn), Except.bind_of_ok (link_ok.2 hp),
    Except.bind_of_ok (FrameStore.load_ok.2 hq), Except.bind_of_ok (link_ok.2 hnext)] at he
  unfold tvmFrameFree at he
  split at he
  · cases he
  · rw [hn] at he; cases he

theorem opCall_meets (env : Env W) : Meets vm (Result env.frames .call inst vm) (opCall env inst vm) := by
  refine guard_meets (by decide) fun hroom => guard_meets (by decide) fun ht => ?_
  refine Post.bind (CArray.store_post (fun hle _ => absurd hle hroom) fun _ => ?_)
  refine Post.bind (frameNext_meets fun r hr => ?_)
  exact .inr ⟨rfl, .call rfl (by omega) (by omega) hr⟩

theorem opRet_meets : Meets vm (Result al .ret inst vm) (opRet vm) := by
  refine guard_meets (by decide) fun hd => ?_
  refine Post.bind (CArray.load_post (fun hle hr => ?_) fun ip hip => ?_)
  · have := hr.rsp
    have : returnStackCapacity ≤ vm.rsp - 1 := hle
    omega
  refine Post.bind (framePrev_meets (Nat.pos_of_ne_zero fun h => hd (h ▸ Nat.one_pos)) fun r hr => ?_)
  exact .inr ⟨rfl, .ret rfl (by omega) hip hr⟩

/-! ## Constants and variables -/

theorem referance_meets {i : Nat} {Q : Nat → Prop} (h : ∀ r, Q r) : Meets vm Q (referance vm i) := by
  unfold referance
  split
  · exact h _
  · exact fun _ => rfl

theorem opLoadc_meets : Meets vm (Result al .loadc inst vm) (opLoadc inst vm) := by
  refine guard_meets (by decide) fun hsp => guard_meets (by decide) fun _ => ?_
  refine Post.bind (referance_meets fun r => Post.ite (fun _ _ => rfl) fun _ => ?_)
  exact pushWith_meets (fun _ => Post.ok trivial) rfl (.refl vm) (by omega)

theorem opAloadc_meets (env : Env W) : Meets vm (Result al .aloadc inst vm) (opAloadc env inst vm) := by
  refine guard_meets (by decide) fun hsp => guard_meets (by decide) fun _ => ?_
  refine Post.bind (referance_meets fun r => ?_)
  exact pushWith_meets (fun _ => Post.ok trivial) rfl (.refl vm) (by omega)

/-- A read of the current frame. -/
theorem frame_meets {Q : TvmFrame → Prop} (h : ∀ n, vm.frames vm.frame = some n → Q n) :
    Meets vm Q (vm.frames.load vm.frame) := by
  refine Post.intro (fun e he hr => ?_) fun n hn => h n (FrameStore.load_ok.1 hn)
  obtain ⟨n, hn⟩ := hr.current
  rw [FrameStore.load_ok.2 hn] at he; cases he

theorem opLoad_meets : Meets vm (Result al .load inst vm) (opLoad inst vm) := by
  refine guard_meets (by decide) fun hsp => guard_meets (by decide) fun hi => ?_
  refine Post.bind (frame_meets fun n _ => Post.bind (CArray.load_post (fun hle _ => absurd hle hi) fun o _ => ?_))
  exact pushWith_meets (fun _ => Post.ok trivial) rfl (.refl vm) (by omega)

theorem opStore_meets : Meets vm (Result al .store inst vm) (opStore inst vm) := by
  refine guard_meets (by decide) fun hsp => guard_meets (by decide) fun hi => ?_
  refine Post.bind (stackAt_meets (fun hr => ?_) fun o _ => ?_)
  · have := hr.sp; show vm.sp - 1 < _; omega
  refine Post.bind (frame_meets fun n hn => ?_)
  refine Post.bind (CArray.store_post (fun hle _ => absurd hle hi) fun _ => ?_)
  exact .inr ⟨rfl, .store rfl (.data vm fun h => show vm.sp - 1 ≤ _ by omega) hn⟩

theorem opGload_meets : Meets vm (Result al .gload inst vm) (opGload inst vm) := by
  refine guard_meets (by decide) fun hsp => guard_meets (by decide) fun hi => ?_
  refine Post.bind (CArray.load_post (fun hle _ => absurd hle hi) fun o _ => ?_)
  exact pushWith_meets (fun _ => Post.ok trivial) rfl (.refl vm) (by omega)

theorem opGstore_meets : Meets vm (Result al .gstore inst vm) (opGstore inst vm) := by
  refine guard_meets (by decide) fun hsp => guard_meets (by decide) fun hi => ?_
  refine Post.bind (stackAt_meets (fun hr => ?_) fun o _ => ?_)
  · have := hr.sp; show vm.sp - 1 < _; omega
  refine Post.bind (CArray.store_post (fun hle _ => absurd hle hi) fun _ => ?_)
  exact next_meets rfl (.data vm fun h => show vm.sp - 1 ≤ _ by omega)

/-! ## Heap and output -/

theorem loadWord_external (h : TgcHeap) (const : Region) (n : Nat) (a : Addr) :
    External (h.loadWord const n a) := by
  unfold TgcHeap.loadWord
  split
  · exact Post.ok trivial
  · exact Post.error rfl

theorem storeValue_external (h : TgcHeap) (value : Addr) (off : Nat) (bs : List Byte) :
    External (h.storeValue value off bs) := by
  unfold TgcHeap.storeValue
  split
  · exact Post.error rfl
  · split
    · exact Post.error rfl
    · exact Post.ite (fun _ => trivial) fun _ => rfl

theorem maybeGrow_external (al : Allocator) (h : TgcHeap) (n : Nat) : External (h.maybeGrow al n) := by
  refine Post.ite (fun _ => ?_) fun _ => trivial
  dsimp only
  split
  · exact Post.ok trivial
  · exact Post.error rfl

theorem map_external {α β : Type} {x : Except Fault α} (g : α → β) (h : External x) : External (x.map g) := by
  cases x with
  | error e => exact h
  | ok a => exact trivial

theorem readCStr_external (h : TgcHeap) (const : Region) :
    ∀ (fuel : Nat) (a : Addr), External (h.readCStr const fuel a)
  | 0, _ => Post.error rfl
  | fuel + 1, a => by
    unfold TgcHeap.readCStr
    split
    · exact Post.error rfl
    · exact Post.ite (fun _ => trivial) fun _ => map_external _ (readCStr_external h const fuel (a + 1))

theorem createBlock_external (al : Allocator) (h : TgcHeap) (size pointerCount : Nat) :
    External (tgcCreateBlock al h size pointerCount) := by
  refine Post.bind ((maybeGrow_external al _ 1).mono (fun _ he => he) fun h1 _ => ?_)
  refine Post.ite (fun _ => ?_) fun _ => trivial
  exact Post.bind ((maybeGrow_external al _ pointerCount).mono (fun _ he => he) fun h2 _ => trivial)

theorem loadTop_meets {f : Addr → Except Fault (BitVec 64)} (hf : ∀ a, External (f a))
    (hfall : fallsThrough op vm = true) (h1 : ¬ vm.sp ≤ 0) : Meets vm (Result al op inst vm) (loadTop f vm) := by
  refine Post.bind (stackAt_meets (fun hr => ?_) fun o _ => Post.bind (external_meets (hf o.ui64) fun v => ?_))
  · have := hr.sp; omega
  refine Post.bind (stackSet_meets (fun hr => ?_) fun stack => ?_)
  · have := hr.sp; omega
  · exact next_meets hfall (.data vm id)

theorem opDeref_meets (env : Env W) : Meets vm (Result al .deref inst vm) (opDeref env vm) :=
  guard_meets (by decide) fun h1 => loadTop_meets (loadWord_external _ _ _) rfl h1

theorem opDerefb_meets (env : Env W) : Meets vm (Result al .derefb inst vm) (opDerefb env inst vm) := by
  refine guard_meets (by decide) fun h1 => guard_meets (by decide) fun _ => ?_
  refine Post.ite (fun _ => ?_) fun _ => Post.ite (fun _ => ?_) fun _ => Post.ite (fun _ => ?_) fun _ => ?_
  · exact loadTop_meets (fun a => map_external _ (loadWord_external _ _ _ a)) rfl h1
  · exact loadTop_meets (fun a => map_external _ (loadWord_external _ _ _ a)) rfl h1
  · exact loadTop_meets (loadWord_external _ _ _) rfl h1
  · exact raise_meets (by decide)

theorem opHalloc_meets (env : Env W) : Meets vm (Result al .halloc inst vm) (opHalloc env vm) := by
  refine guard_meets (by decide) fun h2 => ?_
  refine Post.bind (stackAt_meets (fun hr => ?_) fun size _ => Post.bind (stackAt_meets (fun hr => ?_) fun pc _ => ?_))
  · have := hr.sp; omega
  · have := hr.sp; omega
  refine Post.bind (external_meets (createBlock_external _ _ _ _) fun r => ?_)
  refine Post.bind (stackSet_meets (fun hr => ?_) fun stack => ?_)
  · have := hr.sp; show vm.sp - 2 < _; omega
  · exact next_meets rfl (.data vm fun h => show vm.sp - 1 ≤ _ by omega)

theorem heapSet_meets (env : Env W) {width offset : BitVec 32} (hfall : fallsThrough op vm = true)
    (h4 : ¬ vm.sp < 4) : Meets vm (Result al op inst vm) (heapSet env width offset vm) := by
  refine Post.bind (stackAt_meets (fun hr => ?_) fun addr _ => Post.bind (external_meets (loadWord_external _ _ _ _) fun size => ?_))
  · have := hr.sp; omega
  refine guard_meets (by decide) fun _ => Post.ite (fun _ => ?_) fun _ => raise_meets (by decide)
  refine Post.bind (external_meets (loadWord_external _ _ _ _) fun value => Post.bind (stackAt_meets (fun hr => ?_) fun o _ => ?_))
  · have := hr.sp; omega
  refine Post.bind (external_meets (storeValue_external _ _ _ _) fun heap => ?_)
  exact next_meets hfall (.data vm fun h => show vm.sp - 4 ≤ _ by omega)

theorem opHset_meets (env : Env W) : Meets vm (Result al .hset inst vm) (opHset env vm) := by
  refine guard_meets (by decide) fun h4 => ?_
  refine Post.bind (stackAt_meets (fun hr => ?_) fun size _ => Post.bind (stackAt_meets (fun hr => ?_) fun index _ => ?_))
  · have := hr.sp; omega
  · have := hr.sp; omega
  · exact heapSet_meets env rfl h4

theorem opHsetof_meets (env : Env W) : Meets vm (Result al .hsetof inst vm) (opHsetof env vm) := by
  refine guard_meets (by decide) fun h4 => ?_
  refine Post.bind (stackAt_meets (fun hr => ?_) fun size _ => Post.bind (stackAt_meets (fun hr => ?_) fun offset _ => ?_))
  · have := hr.sp; omega
  · have := hr.sp; omega
  · exact heapSet_meets env rfl h4

theorem opPuts_meets (env : Env W) : Meets vm (Result al .puts inst vm) (opPuts env vm) := by
  refine guard_meets (by decide) fun h1 => ?_
  refine Post.bind (stackAt_meets (fun hr => ?_) fun o _ => ?_)
  · have := hr.sp; show vm.sp - 1 < _; omega
  refine Post.bind (external_meets (readCStr_external _ _ _ _) fun s => ?_)
  exact next_meets rfl (.data vm fun h => show vm.sp - 1 ≤ _ by omega)

theorem opPutc_meets : Meets vm (Result al .putc inst vm) (opPutc vm) := by
  refine guard_meets (by decide) fun h1 => ?_
  refine Post.bind (stackAt_meets (fun hr => ?_) fun o _ => ?_)
  · have := hr.sp; show vm.sp - 1 < _; omega
  · exact next_meets rfl (.data vm fun h => show vm.sp - 1 ≤ _ by omega)

/-! ## Native calls -/

/-- The loop over `vargs` stays inside the array and the stack. -/
theorem gatherArgs_external (vm' : Vm W) : ∀ (todo i slot : Nat), i + todo ≤ 64 → slot + todo ≤ tvmStackCapacity →
    External (gatherArgs vm' todo i slot)
  | 0, _, _, _, _ => Post.ok trivial
  | todo + 1, i, slot, hi, hs => by
    unfold gatherArgs
    refine Post.ite (fun _ => by omega) fun _ => ?_
    refine Post.bind (CArray.load_post (fun hle => by omega) fun o _ => ?_)
    have ih := gatherArgs_external vm' todo (i + 1) (slot + 1) (by omega) (by omega)
    exact Post.bind (ih.mono (fun _ he => he) fun _ _ => trivial)

theorem readArgs_external : ∀ (ts : List Byte) (vs : List (BitVec 64)), External (readArgs ts vs)
  | _, [] => by unfold readArgs; exact Post.ok trivial
  | [], _ :: _ => Post.error rfl
  | t :: ts, v :: vs => by
    unfold readArgs
    have harg : External (readArg t v) := by
      unfold readArg
      split
      · exact Post.ok trivial
      · exact Post.error rfl
    refine Post.bind (harg.mono (fun _ he => he) fun a _ => ?_)
    exact Post.bind ((readArgs_external ts vs).mono (fun _ he => he) fun _ _ => trivial)

theorem cfun_external (p : TvmProgram) (id : Nat) : External (p.cfun id) :=
  Post.bind (CArray.load_post (fun _ => rfl) fun _ _ => CArray.load_post (fun _ => rfl) fun _ _ => trivial)

theorem named_external : ∀ s : Option CStr, External (named s)
  | some _ => Post.ok trivial
  | none => Post.error rfl

/-- A native call changes the native library's state, the heap values and the output. -/
theorem nativeCall_meets {lib : NativeLib W} {vm' : Vm W} {id : Nat} {rvalue : Option (BitVec 64)}
    {avalues : List (BitVec 64)} {Q : Vm W × BitVec 64 → Prop}
    (h : ∀ heap out world ret, Q ({ vm' with heap, out, world }, ret)) :
    Meets vm Q (tciNativeCall lib vm' id rvalue avalues) := by
  unfold tciNativeCall
  refine Post.bind (external_meets (cfun_external _ _) fun f => ?_)
  refine Post.bind (external_meets (named_external _) fun name => ?_)
  dsimp only
  split
  · exact Post.error fun _ => rfl
  · exact h _ _ _ _
  · split
    · exact Post.error fun _ => rfl
    · refine Post.bind (external_meets (readArgs_external _ _) fun args => ?_)
      split
      · exact h _ _ _ _
      · have hstore : ∀ ret v, External (storeRet lib.ffiStore f.rtype ret v) := by
          intro ret v
          unfold storeRet
          split
          · exact Post.ok trivial
          · exact Post.error rfl
        exact Post.bind (external_meets (hstore _ _) fun ret => h _ _ _ _)

theorem opNative_meets (env : Env W) : Meets vm (Result al .native inst vm) (opNative env inst vm) := by
  unfold opNative
  refine Post.bind (Post.intro (fun e he _ => (cfun_external _ _).of_error he) fun f hf => ?_)
  refine Post.bind (CArray.load_post (fun _ _ => rfl) fun m hm => ?_)
  refine guard_meets (by decide) fun ha => guard_meets (by decide) fun hsp => guard_meets (by decide) fun hid => ?_
  have hargs : Meets vm (fun _ => True) (gatherArgs vm f.acount 0 (vm.sp - f.acount)) := by
    refine Post.intro (fun e he hr => ?_) fun _ _ => trivial
    obtain ⟨m', hm', hf⟩ := Except.bind_ok hf
    rw [CArray.load_ok] at hm' hf
    rw [hm] at hm'
    cases hm'
    have := hr.acount 0 m _ f hm (by omega) hf
    exact (gatherArgs_external vm f.acount 0 _ (by omega) (by omega)).of_error he
  refine Post.bind (hargs.mono (fun _ he => he) fun vargs _ => Post.ite (fun _ => ?_) fun _ => ?_)
  · refine Post.bind (nativeCall_meets fun heap out world ret => ?_)
    exact next_meets rfl (.data vm fun h => show vm.sp - f.acount ≤ _ by omega)
  · refine Post.bind (nativeCall_meets fun heap out world ret => ?_)
    refine pushWith_meets (fun _ => Post.ok trivial) rfl (.data vm fun h => show vm.sp - f.acount ≤ _ by omega) ?_
    exact show vm.sp - f.acount < _ by omega

/-! ## The switch -/

/-- Every branch of the switch raises before it changes anything, or has one of the effects. -/
theorem tvmExecOp_meets (env : Env W) (op : OpType) (inst : Opcode) (vm : Vm W) :
    Meets vm (Result env.frames op inst vm) (tvmExecOp env op inst vm) := by
  -- one case for each opcode, along its guards
  cases op with
  | nop => exact next_meets rfl (.refl vm)
  | push => exact guard_meets (by decide) fun h => pushWith_meets (fun _ => Post.ok trivial) rfl (.refl vm) (by omega)
  | pop =>
    exact guard_meets (by decide) fun _ => next_meets rfl (.data vm fun h => show vm.sp - 1 ≤ _ by omega)
  | add | sub | mult | addf | subf | multf | divf => exact arithOp_meets (word2_external _) rfl
  | div | mod => exact divOp_meets (divWord_external _) rfl
  | dup =>
    refine guard_meets (by decide) fun _ => guard_meets (by decide) fun h => ?_
    refine Post.bind (stackAt_meets (fun _ => by omega) fun a _ => ?_)
    exact pushWith_meets (fun _ => Post.ok trivial) rfl (.refl vm) (by omega)
  | cln =>
    refine guard_meets (by decide) fun _ => guard_meets (by decide) fun _ => guard_meets (by decide) fun h => ?_
    refine Post.bind (stackAt_meets (fun _ => by omega) fun a _ => ?_)
    exact pushWith_meets (fun _ => Post.ok trivial) rfl (.refl vm) (by omega)
  | swap =>
    refine guard_meets (by decide) fun _ => guard_meets (by decide) fun h => ?_
    refine Post.bind (stackAt_meets (fun hr => ?_) fun temp _ => Post.bind (stackAt_meets (fun hr => ?_) fun a _ => ?_))
    · have := hr.sp; omega
    · have := hr.sp; omega
    refine Post.bind (stackSet_meets (fun hr => ?_) fun s1 => Post.bind (stackSet_meets (fun hr => ?_) fun s2 => ?_))
    · have := hr.sp; omega
    · have := hr.sp; show vm.sp - _ - 1 < _; omega
    · exact next_meets rfl (.data vm id)
  | inc | incf | dec | decf | ci2f | ci2u | cf2i | cf2u | cu2i | cu2f | not | bnot => exact unaryOp_meets rfl
  | jmp => exact guard_meets (by decide) fun h => .inr ⟨rfl, .jump (.inl rfl) rfl (.refl vm) (by omega)⟩
  | jz => exact condJump_meets (· == 0) (.inl rfl) rfl
  | jnz => exact condJump_meets (· != 0) (.inr rfl) rfl
  | call => exact opCall_meets env
  | ret => exact opRet_meets
  | gt | gtf | lt | ltf | eq | eqf | ge | gef | le | lef | and | or => exact arithOp_meets (test2_external _) rfl
  | band | bor => exact binaryOp_meets (word2_external _) rfl
  | lshft | rshft => exact binaryOp_meets (shiftWord_external _) rfl
  | loadc => exact opLoadc_meets
  | aloadc => exact opAloadc_meets env
  | load => exact opLoad_meets
  | store => exact opStore_meets
  | gload => exact opGload_meets
  | gstore => exact opGstore_meets
  | halloc => exact opHalloc_meets env
  | deref => exact opDeref_meets env
  | derefb => exact opDerefb_meets env
  | hset => exact opHset_meets env
  | hsetof => exact opHsetof_meets env
  | puts => exact opPuts_meets env
  | putc => exact opPutc_meets
  | native => exact opNative_meets env
  | halt => exact .inr ⟨rfl, .halt rfl⟩

/-- What an executed instruction returns. -/
def InstResult (al : FrameAllocator) (inst : Opcode) (vm : Vm W) (r : Ret W) : Prop :=
  (r.1 ≠ .ok ∧ r.2 = vm) ∨
    (r.1 = .ok ∧ ∃ op, OpType.ofNat? inst.type.toNat = some op ∧ Effect al op inst vm r.2)

theorem tvmExecInst_meets (env : Env W) (inst : Opcode) (vm : Vm W) :
    Meets vm (InstResult env.frames inst vm) (tvmExecInst env inst vm) := by
  unfold tvmExecInst
  split
  · rename_i op hop
    exact (tvmExecOp_meets env op inst vm).mono (fun _ he => he)
      fun r hr => hr.imp id fun ⟨hok, heff⟩ => ⟨hok, op, hop, heff⟩
  · exact .inl ⟨show TvmException.invalidInstruction ≠ .ok by decide, rfl⟩

/-- The effect of a successful instruction. -/
theorem tvmExecInst_effect {env : Env W} {vm' : Vm W} (h : tvmExecInst env inst vm = .ok (.ok, vm')) :
    ∃ op, OpType.ofNat? inst.type.toNat = some op ∧ Effect env.frames op inst vm vm' := by
  rcases (tvmExecInst_meets env inst vm).of_ok h with ⟨hne, -⟩ | ⟨-, h⟩
  · exact absurd rfl hne
  · exact h

theorem tvmExecOpcode_eq {env : Env W} {inst : Opcode} (h : vm.program.code.get? vm.ip = some inst) :
    tvmExecOpcode env vm = tvmExecInst env inst vm :=
  Except.bind_of_ok (CArray.load_ok.2 h)

/-- The opcode that a state executes next. -/
def Vm.nextOp (vm : Vm W) : Option OpType := do
  let inst ← vm.program.code.get? vm.ip
  OpType.ofNat? inst.type.toNat

/-- The effect of a successful step of a program. -/
theorem tvmExecOpcode_effect {env : Env W} {vm' : Vm W} (h : tvmExecOpcode env vm = .ok (.ok, vm')) :
    ∃ inst op, vm.program.code.get? vm.ip = some inst ∧ vm.nextOp = some op ∧
      Effect env.frames op inst vm vm' := by
  obtain ⟨inst, hinst, h⟩ := Except.bind_ok h
  obtain ⟨op, hop, heff⟩ := tvmExecInst_effect h
  have hinst := CArray.load_ok.1 hinst
  exact ⟨inst, op, hinst, by rw [Vm.nextOp, hinst]; exact hop, heff⟩

end TileVm
