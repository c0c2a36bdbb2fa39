/-
Which instruction is to blame for a fault. Each instruction has its own faults: those of the memory,
the native function, the constant or the arithmetic that it was asked for. A run that faults stands at
an instruction with that fault, or behind the end of a code array that is full; the machine's own
arrays and frames are never the reason.
-/
import TileVm.Vm.Run

namespace TileVm

open Except (Post)

variable {W : Type} {env : Env W} {op : OpType} {inst : Opcode} {vm : Vm W} {p : TvmProgram}

/-! ## Faults of instructions -/

/-- The fault of a load out of the constant data at the reference `i`. -/
def TvmConstTable.loadFault (t : TvmConstTable) (i : Nat) : Option Fault :=
  match t.referances[i]? with
  | none => some (.outOfBounds .referances)
  | some r => if t.data.length < r + 4 then some (.outOfBounds .constData) else none

/-- The fault of the address of the reference `i`. -/
def TvmConstTable.addressFault (t : TvmConstTable) (i : Nat) : Option Fault :=
  if t.referances.length ≤ i then some (.outOfBounds .referances) else none

/-- The faults of a native call: what the entry of the function names, and how libffi finds it. -/
def nativeFaults : List Fault :=
  [.outOfBounds .modules, .outOfBounds .cfuns, .outOfBounds .atypes, .nullPointer, .uninitialized]

/-- The instruction `op` at the operand of `inst` can fault with `f`. -/
def OpType.mayFault (op : OpType) (t : TvmConstTable) (inst : Opcode) (f : Fault) : Prop :=
  match op with
  | .div | .mod | .lshft | .rshft => f = .undefinedArith
  | .call | .halloc => f = .outOfMemory
  | .loadc => inst.operand.ui32.toNat < t.referanceCount ∧ t.loadFault inst.operand.ui32.toNat = some f
  | .aloadc => inst.operand.ui32.toNat < t.referanceCount ∧ t.addressFault inst.operand.ui32.toNat = some f
  | .deref | .derefb | .hset | .hsetof | .puts => f = .badAddress
  | .native => f ∈ nativeFaults
  | _ => False

instance (op : OpType) (t : TvmConstTable) (inst : Opcode) (f : Fault) : Decidable (op.mayFault t inst f) := by
  unfold OpType.mayFault
  cases op <;> infer_instance

/-! ## Rules -/

/-- `x` faults on the machine's own arrays and frames, or as `F` says. -/
abbrev FaultsAs {α : Type} (F : Fault → Prop) (x : Except Fault α) : Prop :=
  Post (fun f => f.internal = true ∨ F f) (fun _ => True) x

section Rules

variable {α β : Type} {F : Fault → Prop} {w : Vm W} {c : Prop} [Decidable c]

theorem bind_faults {x : Except Fault α} {f : α → Except Fault β} (hx : FaultsAs F x) (hf : ∀ a, FaultsAs F (f a)) :
    FaultsAs F (x >>= f) :=
  Post.bind (hx.mono (fun _ h => h) fun a _ => hf a)

theorem guard_faults {e : TvmException} {x : Except Fault (Ret W)} (h : ¬ c → FaultsAs F x) :
    FaultsAs F (if c then raise e w else x) :=
  .ite (fun _ => trivial) h

theorem stackAt_faults {i : Nat} : FaultsAs F (w.stackAt i) := CArray.load_post (fun _ => .inl rfl) fun _ _ => trivial

theorem stackSet_faults {i : Nat} {o : ObjectT} : FaultsAs F (w.stackSet i o) :=
  Post.map (CArray.store_post (fun _ => .inl rfl) fun _ => trivial)

theorem frameLoad_faults {fs : FrameStore} {a : Addr} : FaultsAs F (fs.load a) := by
  unfold FrameStore.load
  split
  · trivial
  · exact .inl rfl

/-! ## Families -/

theorem applyTwo_faults {f : ObjectT → ObjectT → Except Fault ObjectT} (hf : ∀ a b, FaultsAs F (f a b)) :
    FaultsAs F (applyTwo f w) := by
  refine bind_faults stackAt_faults fun _ => bind_faults stackAt_faults fun _ => ?_
  exact bind_faults (hf _ _) fun _ => bind_faults stackSet_faults fun _ => trivial

theorem binaryOp_faults {f : ObjectT → ObjectT → Except Fault ObjectT} (hf : ∀ a b, FaultsAs F (f a b)) :
    FaultsAs F (binaryOp f w) :=
  guard_faults fun _ => applyTwo_faults hf

theorem arithOp_faults {f : ObjectT → ObjectT → Except Fault ObjectT} (hf : ∀ a b, FaultsAs F (f a b)) :
    FaultsAs F (arithOp f w) :=
  guard_faults fun _ => guard_faults fun _ => applyTwo_faults hf

theorem divOp_faults {f : ObjectT → ObjectT → Except Fault ObjectT} (hf : ∀ a b, FaultsAs F (f a b)) :
    FaultsAs F (divOp f w) :=
  guard_faults fun _ => guard_faults fun _ => bind_faults stackAt_faults fun _ => guard_faults fun _ => applyTwo_faults hf

theorem unaryOp_faults {f : ObjectT → ObjectT} : FaultsAs F (unaryOp f w) :=
  guard_faults fun _ => bind_faults stackAt_faults fun _ => bind_faults stackSet_faults fun _ => trivial

theorem pushWith_faults {f : ObjectT → Except Fault ObjectT} (hf : ∀ a, FaultsAs F (f a)) : FaultsAs F (pushWith f w) :=
  bind_faults stackAt_faults fun _ => bind_faults (hf _) fun _ => bind_faults stackSet_faults fun _ => trivial

theorem condJump_faults (taken : BitVec 32 → Bool) : FaultsAs F (condJump taken inst w) :=
  guard_faults fun _ => guard_faults fun _ => bind_faults stackAt_faults fun _ => .ite (fun _ => trivial) fun _ => trivial

theorem divWord_faults {f : BitVec 32 → BitVec 32 → BitVec 32} {a b : ObjectT} : FaultsAs (· = .undefinedArith) (divWord f a b) :=
  .ite (fun _ => .inr rfl) fun _ => trivial

theorem shiftWord_faults {f : BitVec 32 → Nat → BitVec 32} {a b : ObjectT} : FaultsAs (· = .undefinedArith) (shiftWord f a b) :=
  .ite (fun _ => .inr rfl) fun _ => trivial

/-! ## Frames -/

theorem frameInit_faults {al : FrameAllocator} {fs : FrameStore} : FaultsAs (· = .outOfMemory) (tvmFrameInit al fs) := by
  unfold tvmFrameInit
  split
  · trivial
  · exact .inr rfl

theorem frameNext_faults {al : FrameAllocator} {fs : FrameStore} {a : Addr} :
    FaultsAs (· = .outOfMemory) (tvmFrameNext al fs a) :=
  bind_faults frameLoad_faults fun _ => bind_faults frameInit_faults fun _ => bind_faults frameLoad_faults fun _ => trivial

theorem link_faults {l : Option Addr} : FaultsAs F (link l) := by
  cases l with
  | none => exact .inl rfl
  | some a => trivial

theorem frameFree_faults {fs : FrameStore} {a : Addr} : FaultsAs F (tvmFrameFree fs a) := by
  refine .ite (fun _ => trivial) fun _ => ?_
  split
  · trivial
  · exact .inl rfl

theorem framePrev_faults {fs : FrameStore} {a : Addr} : FaultsAs F (tvmFramePrev fs a) := by
  refine bind_faults frameLoad_faults fun _ => bind_faults link_faults fun _ => ?_
  refine bind_faults frameLoad_faults fun _ => bind_faults link_faults fun _ => ?_
  exact bind_faults frameFree_faults fun _ => trivial

/-! ## Memory -/

variable {h : TgcHeap} {const : Region} {n off : Nat} {a : Addr}

theorem loadWord_faults : FaultsAs (· = .badAddress) (h.loadWord const n a) := by
  unfold TgcHeap.loadWord
  split
  · trivial
  · exact .inr rfl

theorem storeValue_faults {bs : List Byte} : FaultsAs (· = .badAddress) (h.storeValue a off bs) := by
  unfold TgcHeap.storeValue
  split
  · exact .inr rfl
  · split
    · exact .inr rfl
    · exact .ite (fun _ => trivial) fun _ => .inr rfl

theorem readCStr_faults : ∀ (fuel : Nat) (a : Addr), FaultsAs (· = .badAddress) (h.readCStr const fuel a)
  | 0, _ => .inr rfl
  | fuel + 1, a => by
    unfold TgcHeap.readCStr
    split
    · exact .inr rfl
    · exact .ite (fun _ => trivial) fun _ => Post.map (readCStr_faults fuel (a + 1))

theorem maybeGrow_faults {al : Allocator} : FaultsAs (· = .outOfMemory) (h.maybeGrow al n) := by
  refine .ite (fun _ => ?_) fun _ => trivial
  dsimp only
  split
  · trivial
  · exact .inr rfl

theorem createBlock_faults {al : Allocator} {size pointerCount : Nat} :
    FaultsAs (· = .outOfMemory) (tgcCreateBlock al h size pointerCount) := by
  refine bind_faults maybeGrow_faults fun _ => .ite (fun _ => ?_) fun _ => trivial
  exact bind_faults maybeGrow_faults fun _ => trivial

theorem loadTop_faults {f : Addr → Except Fault (BitVec 64)} (hf : ∀ a, FaultsAs F (f a)) : FaultsAs F (loadTop f w) :=
  bind_faults stackAt_faults fun _ => bind_faults (hf _) fun _ => bind_faults stackSet_faults fun _ => trivial

theorem heapSet_faults {width offset : BitVec 32} : FaultsAs (· = .badAddress) (heapSet env width offset w) := by
  refine bind_faults stackAt_faults fun _ => bind_faults loadWord_faults fun _ => ?_
  refine guard_faults fun _ => .ite (fun _ => ?_) fun _ => trivial
  exact bind_faults loadWord_faults fun _ => bind_faults stackAt_faults fun _ => bind_faults storeValue_faults fun _ => trivial

/-! ## Native calls -/

theorem gatherArgs_faults : ∀ todo i slot : Nat, FaultsAs F (gatherArgs w todo i slot)
  | 0, _, _ => trivial
  | todo + 1, i, slot => by
    refine .ite (fun _ => .inl rfl) fun _ => bind_faults stackAt_faults fun _ => ?_
    exact bind_faults (gatherArgs_faults todo (i + 1) (slot + 1)) fun _ => trivial

theorem readArg_faults {t : Byte} {v : BitVec 64} : FaultsAs (· ∈ nativeFaults) (readArg t v) := by
  unfold readArg
  split
  · trivial
  · exact .inr (by decide)

theorem readArgs_faults : ∀ (ts : List Byte) (vs : List (BitVec 64)), FaultsAs (· ∈ nativeFaults) (readArgs ts vs)
  | _, [] => by unfold readArgs; trivial
  | [], _ :: _ => .inr (by decide)
  | t :: ts, v :: vs => by
    unfold readArgs
    exact bind_faults readArg_faults fun _ => bind_faults (readArgs_faults ts vs) fun _ => trivial

theorem storeRet_faults {store : CType → BitVec 64 → BitVec 64 → BitVec 64} {t : Byte} {ret v : BitVec 64} :
    FaultsAs (· ∈ nativeFaults) (storeRet store t ret v) := by
  unfold storeRet
  split
  · trivial
  · exact .inr (by decide)

theorem named_faults {s : Option CStr} : FaultsAs (· ∈ nativeFaults) (named s) := by
  cases s with
  | none => exact .inr (by decide)
  | some s => trivial

theorem modules_faults {i : Nat} : FaultsAs (· ∈ nativeFaults) (p.metadata.modules.load (.outOfBounds .modules) i) :=
  CArray.load_post (fun _ => .inr (by decide)) fun _ _ => trivial

theorem cfun_faults {id : Nat} : FaultsAs (· ∈ nativeFaults) (p.cfun id) :=
  bind_faults modules_faults fun _ => CArray.load_post (fun _ => .inr (by decide)) fun _ _ => trivial

theorem nativeCall_faults {lib : NativeLib W} {id : Nat} {rvalue : Option (BitVec 64)} {avalues : List (BitVec 64)} :
    FaultsAs (· ∈ nativeFaults) (tciNativeCall lib w id rvalue avalues) := by
  unfold tciNativeCall
  refine bind_faults cfun_faults fun f => bind_faults named_faults fun name => ?_
  dsimp only
  split
  · exact .inr (by decide)
  · trivial
  · split
    · exact .inr (by decide)
    · refine bind_faults (readArgs_faults _ _) fun args => ?_
      split
      · trivial
      · exact bind_faults storeRet_faults fun _ => trivial

theorem opNative_faults : FaultsAs (· ∈ nativeFaults) (opNative env inst w) := by
  refine bind_faults cfun_faults fun _ => bind_faults modules_faults fun _ => ?_
  refine guard_faults fun _ => guard_faults fun _ => guard_faults fun _ => ?_
  refine bind_faults (gatherArgs_faults _ _ _) fun _ => .ite (fun _ => ?_) fun _ => ?_
  · exact bind_faults nativeCall_faults fun _ => trivial
  · exact bind_faults nativeCall_faults fun _ => pushWith_faults fun _ => trivial

end Rules

/-! ## Constants -/

theorem opLoadc_faults : FaultsAs (OpType.loadc.mayFault vm.program.constTable inst) (opLoadc inst vm) := by
  refine guard_faults fun _ => guard_faults fun hcount => ?_
  have hin : inst.operand.ui32.toNat < vm.program.constTable.referanceCount := Nat.not_le.mp hcount
  unfold referance
  cases href : vm.program.constTable.referances[inst.operand.ui32.toNat]? with
  | none => exact .inr ⟨hin, by unfold TvmConstTable.loadFault; rw [href]⟩
  | some r =>
    refine .ite (fun hshort => .inr ⟨hin, ?_⟩) fun _ => pushWith_faults fun _ => trivial
    rw [List.length_take, List.length_drop] at hshort
    unfold TvmConstTable.loadFault
    rw [href]
    exact if_pos (by omega)

theorem opAloadc_faults : FaultsAs (OpType.aloadc.mayFault vm.program.constTable inst) (opAloadc env inst vm) := by
  refine guard_faults fun _ => guard_faults fun hcount => ?_
  unfold referance
  cases href : vm.program.constTable.referances[inst.operand.ui32.toNat]? with
  | none => exact .inr ⟨Nat.not_le.mp hcount, if_pos (List.getElem?_eq_none_iff.mp href)⟩
  | some r => exact pushWith_faults fun _ => trivial

/-! ## The switch -/

/-- An instruction faults as its opcode can, apart from the machine's own arrays and frames. -/
theorem tvmExecOp_faults : FaultsAs (op.mayFault vm.program.constTable inst) (tvmExecOp env op inst vm) := by
  -- one case for each family, as the switch lists its opcodes
  cases op with
  | nop | halt => trivial
  | push => exact guard_faults fun _ => pushWith_faults fun _ => trivial
  | pop => exact guard_faults fun _ => trivial
  | add | sub | mult | addf | subf | multf | divf => exact arithOp_faults fun _ _ => trivial
  | gt | gtf | lt | ltf | eq | eqf | ge | gef | le | lef | and | or => exact arithOp_faults fun _ _ => trivial
  | div | mod => exact divOp_faults fun _ _ => divWord_faults
  | dup => exact guard_faults fun _ => guard_faults fun _ => bind_faults stackAt_faults fun _ => pushWith_faults fun _ => trivial
  | cln =>
    refine guard_faults fun _ => guard_faults fun _ => guard_faults fun _ => ?_
    exact bind_faults stackAt_faults fun _ => pushWith_faults fun _ => trivial
  | swap =>
    refine guard_faults fun _ => guard_faults fun _ => bind_faults stackAt_faults fun _ => bind_faults stackAt_faults fun _ => ?_
    exact bind_faults stackSet_faults fun _ => bind_faults stackSet_faults fun _ => trivial
  | inc | incf | dec | decf | ci2f | ci2u | cf2i | cf2u | cu2i | cu2f | not | bnot => exact unaryOp_faults
  | jmp => exact guard_faults fun _ => trivial
  | jz => exact condJump_faults (· == 0)
  | jnz => exact condJump_faults (· != 0)
  | call =>
    refine guard_faults fun _ => guard_faults fun _ => ?_
    refine bind_faults (CArray.store_post (fun _ => .inl rfl) fun _ => trivial) fun _ => ?_
    exact bind_faults frameNext_faults fun _ => trivial
  | ret =>
    refine guard_faults fun _ => bind_faults (CArray.load_post (fun _ => .inl rfl) fun _ _ => trivial) fun _ => ?_
    exact bind_faults framePrev_faults fun _ => trivial
  | band | bor => exact binaryOp_faults fun _ _ => trivial
  | lshft | rshft => exact binaryOp_faults fun _ _ => shiftWord_faults
  | loadc => exact opLoadc_faults
  | aloadc => exact opAloadc_faults
  | load =>
    refine guard_faults fun _ => guard_faults fun _ => bind_faults frameLoad_faults fun _ => ?_
    exact bind_faults (CArray.load_post (fun _ => .inl rfl) fun _ _ => trivial) fun _ => pushWith_faults fun _ => trivial
  | store =>
    refine guard_faults fun _ => guard_faults fun _ => bind_faults stackAt_faults fun _ => bind_faults frameLoad_faults fun _ => ?_
    exact bind_faults (CArray.store_post (fun _ => .inl rfl) fun _ => trivial) fun _ => trivial
  | gload =>
    refine guard_faults fun _ => guard_faults fun _ => ?_
    exact bind_faults (CArray.load_post (fun _ => .inl rfl) fun _ _ => trivial) fun _ => pushWith_faults fun _ => trivial
  | gstore =>
    refine guard_faults fun _ => guard_faults fun _ => bind_faults stackAt_faults fun _ => ?_
    exact bind_faults (CArray.store_post (fun _ => .inl rfl) fun _ => trivial) fun _ => trivial
  | halloc =>
    refine guard_faults fun _ => bind_faults stackAt_faults fun _ => bind_faults stackAt_faults fun _ => ?_
    exact bind_faults createBlock_faults fun _ => bind_faults stackSet_faults fun _ => trivial
  | deref => exact guard_faults fun _ => loadTop_faults fun _ => loadWord_faults
  | derefb =>
    -- one, four or eight bytes, and no other width
    refine guard_faults fun _ => guard_faults fun _ => ?_
    refine .ite (fun _ => ?_) fun _ => .ite (fun _ => ?_) fun _ => .ite (fun _ => ?_) fun _ => trivial
    · exact loadTop_faults fun _ => Post.map loadWord_faults
    · exact loadTop_faults fun _ => Post.map loadWord_faults
    · exact loadTop_faults fun _ => loadWord_faults
  | hset => exact guard_faults fun _ => bind_faults stackAt_faults fun _ => bind_faults stackAt_faults fun _ => heapSet_faults
  | hsetof => exact guard_faults fun _ => bind_faults stackAt_faults fun _ => bind_faults stackAt_faults fun _ => heapSet_faults
  | puts => exact guard_faults fun _ => bind_faults stackAt_faults fun _ => bind_faults (readCStr_faults _ _) fun _ => trivial
  | putc => exact guard_faults fun _ => bind_faults stackAt_faults fun _ => trivial
  | native => exact opNative_faults

/-! ## Runs -/

/-- The instruction at `ip` has the fault, or `ip` is behind the code array. -/
def BlamedAt (p : TvmProgram) (ip : Nat) (f : Fault) : Prop :=
  (∃ inst op, p.code.get? ip = some inst ∧ OpType.ofNat? inst.type.toNat = some op ∧ op.mayFault p.constTable inst f) ∨
    (f = .outOfBounds .code ∧ tvmProgramCapacity ≤ ip)

/-- A turn of the loop takes a sound state to a sound state. -/
theorem Sound.body {base : Addr} {vm' : Vm W} (h : Sound base p vm) (hbody : tvmRunBody env vm = .ok vm') :
    Sound base p vm' := by
  obtain ⟨inst, -, hexec⟩ := Except.bind_ok (tvmRunBody_ok hbody)
  exact h.steps ⟨inst, _, hexec⟩

/-- The states at the head of the loop are sound. -/
theorem sound_of_enters {world : W} {vm₀ : Vm W} (hinit : tvmInit env p world = .ok vm₀)
    (h : Loop.Enters tvmRunCond (tvmRunBody env) vm₀ vm) : Sound vm₀.frame p vm :=
  h.inv _ (.init hinit) fun _ _ hs hbody => hs.body hbody

/-- A step of a sound state is to blame on the instruction that it executes. -/
theorem Sound.blamed {base : Addr} {f : Fault} (h : Sound base p vm) (hargs : SmallArgs p)
    (hexec : tvmExecOpcode env vm = .error f) : BlamedAt p vm.ip f := by
  obtain rfl := h.program
  rcases Except.bind_error hexec with hfetch | ⟨inst, hfetch, hexec⟩
  · exact .inr (CArray.load_error hfetch)
  · have hinternal := (tvmExecInst_meets env inst vm).of_error hexec (h.ready hargs)
    unfold tvmExecInst at hexec
    split at hexec
    · rename_i op hop
      rcases tvmExecOp_faults.of_error hexec with hown | hfault
      · rw [hinternal] at hown
        cases hown
      · exact .inl ⟨inst, op, CArray.load_ok.mp hfetch, hop, hfault⟩
    · cases hexec

/-- The current frame of a sound state can be freed. -/
theorem Sound.frameFree {base : Addr} (h : Sound base p vm) : ∃ frames, tvmFrameFree vm.frames vm.frame = .ok frames := by
  obtain ⟨path, hc⟩ := h.chain
  obtain ⟨n, hn⟩ := hc.live_of_mem _ hc.head_mem
  unfold tvmFrameFree
  rw [hn]
  split
  · exact ⟨_, rfl⟩
  · exact ⟨_, rfl⟩

/-- For every program whose functions have at most 64 arguments and every run of `tvm_run` from `tvm_init`: where it faults, it
has come to an instruction that has this fault, or to the place behind a code array that is full. -/
theorem tvmRun_blamed (env : Env W) (p : TvmProgram) (hargs : SmallArgs p) (world : W) (vm : Vm W)
    (hinit : tvmInit env p world = .ok vm) (fuel : Nat) (f : Fault) (h : tvmRun env fuel vm = .error (.fault (.fault f))) :
    ∃ vm', Loop.Enters tvmRunCond (tvmRunBody env) vm vm' ∧ vm'.ip ≤ p.size ∧ BlamedAt p vm'.ip f := by
  rcases Except.bind_error h with hloop | ⟨vm', hloop, hfree⟩
  · obtain ⟨vm', henters, hbody⟩ := Loop.run_fault fuel (fun hc => .first hc) hloop
    have hsound := sound_of_enters hinit henters
    have hle := (tvmRunCond_true.mp henters.cond_true).2
    rw [hsound.program] at hle
    have hexec : tvmExecOpcode env vm' = .error f := by
      unfold tvmRunBody at hbody
      split at hbody
      · cases hbody
        assumption
      · split at hbody <;> cases hbody
    exact ⟨vm', henters, hle, hsound.blamed hargs hexec⟩
  · -- behind the loop only the current frame is freed
    have hsound := (Loop.run_inv (Sound vm.frame p) (fun _ _ hs _ hbody => hs.body hbody) fuel vm vm' (.init hinit) hloop).1
    obtain ⟨frames, hframes⟩ := hsound.frameFree
    dsimp only at hfree
    rw [hframes] at hfree
    cases hfree

/-- `push 1`, `push 40` and `lshft`. -/
def shiftFar : TvmProgram :=
  { TvmProgram.zero with
    code := TvmProgram.zero.code.putAll 0
      [⟨OpType.push.code, ⟨StackObjType.number.code, 1⟩⟩, ⟨OpType.push.code, ⟨StackObjType.number.code, 40⟩⟩,
        ⟨OpType.lshft.code, .zero⟩]
    size := 3 }

theorem tvmRun_blamed_shift : ∃ vm : Vm Unit, tvmInit (.bare [64]) shiftFar () = .ok vm ∧
    tvmRun (.bare [64]) 3 vm = .error (.fault (.fault .undefinedArith)) ∧
    ∃ vm', Loop.Enters tvmRunCond (tvmRunBody (.bare [64])) vm vm' ∧ vm'.ip ≤ shiftFar.size ∧
      BlamedAt shiftFar vm'.ip .undefinedArith := by
  have hargs : SmallArgs shiftFar := by
    intro i m id f hm hid _
    rw [show shiftFar.metadata.modules.get? i = some TvmProgramMetadataModule.zero from
      CArray.get?_fill _ (CArray.get?_lt hm)] at hm
    cases hm
    exact absurd hid (Nat.not_lt_zero _)
  have hrun : ∃ vm : Vm Unit, tvmInit (.bare [64]) shiftFar () = .ok vm ∧
      tvmRun (.bare [64]) 3 vm = .error (.fault (.fault .undefinedArith)) := ⟨_, rfl, rfl⟩
  obtain ⟨vm, hinit, hfault⟩ := hrun
  exact ⟨vm, hinit, hfault, tvmRun_blamed (.bare [64]) shiftFar hargs () vm hinit 3 _ hfault⟩

end TileVm
