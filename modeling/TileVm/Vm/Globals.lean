/-
Single writers: the global variables are written by `OP_GSTORE` alone, the array of descriptors and its
counter by `OP_HALLOC` alone.
-/
import TileVm.Vm.Calls

namespace TileVm

open Except (Post)

variable {W : Type} {vm w : Vm W} {inst : Opcode}

/-- `x`, run on `vm`, faults or leaves the global variables. -/
abbrev KeepsGlobals (vm : Vm W) (x : Except Fault (Ret W)) : Prop :=
  Post (fun _ => True) (fun r => r.2.globalVars = vm.globalVars) x

/-- The heap without the values behind its descriptors. -/
def TgcHeap.descriptors (h : TgcHeap) : TgcHeap := { h with values := [] }

/-- `x`, run on `vm`, faults or leaves the descriptors. -/
abbrev KeepsDescriptors (vm : Vm W) (x : Except Fault (Ret W)) : Prop :=
  Post (fun _ => True) (fun r => r.2.heap.descriptors = vm.heap.descriptors) x

/-- What one instruction each may write: the global variables and the descriptors. -/
def Vm.shared (vm : Vm W) : CArray ObjectT tvmMaxLocalVar × TgcHeap := (vm.globalVars, vm.heap.descriptors)

/-- `x`, run on `vm`, faults or leaves both. -/
abbrev KeepsShared (vm : Vm W) (x : Except Fault (Ret W)) : Prop :=
  Post (fun _ => True) (fun r => r.2.shared = vm.shared) x

/-! ## Rules -/

theorem keeps_bind {α : Type} {x : Except Fault α} {f : α → Except Fault (Ret W)}
    (h : ∀ a, x = .ok a → KeepsShared vm (f a)) : KeepsShared vm (x >>= f) :=
  Post.bind (Post.intro (fun _ _ => trivial) h)

theorem keeps_stackSet {i : Nat} {o : ObjectT} {f : Vm W → Except Fault (Ret W)}
    (h : ∀ stack, KeepsShared vm (f { w with stack })) : KeepsShared vm (w.stackSet i o >>= f) := by
  apply keeps_bind
  intro a ha
  obtain ⟨stack, -, rfl⟩ := Except.map_eq_ok ha
  exact h stack

/-- A guard raises in the state it was given. -/
theorem keeps_guard {c : Prop} [Decidable c] {e : TvmException} {x : Except Fault (Ret W)}
    (h : ¬ c → KeepsShared vm x) : KeepsShared vm (if c then raise e vm else x) :=
  Post.ite (fun _ => rfl) h

theorem pushWith_keeps {f : ObjectT → Except Fault ObjectT} (h : w.shared = vm.shared) :
    KeepsShared vm (pushWith f w) :=
  keeps_bind fun _ _ => keeps_bind fun _ _ => keeps_stackSet fun _ => h

/-- A store through a block changes bytes of values. -/
theorem storeValue_descriptors {h h' : TgcHeap} {value : Addr} {off : Nat} {bs : List Byte}
    (hs : h.storeValue value off bs = .ok h') : h'.descriptors = h.descriptors := by
  unfold TgcHeap.storeValue at hs
  split at hs
  · cases hs
  · split at hs
    · cases hs
    · split at hs
      · cases hs
        rfl
      · cases hs

/-! ## Families -/

section Families

variable {f : ObjectT → ObjectT → Except Fault ObjectT}

theorem applyTwo_keeps : KeepsShared vm (applyTwo f vm) :=
  keeps_bind fun _ _ => keeps_bind fun _ _ => keeps_bind fun _ _ => keeps_stackSet fun _ => rfl

theorem binaryOp_keeps : KeepsShared vm (binaryOp f vm) :=
  keeps_guard fun _ => applyTwo_keeps

theorem arithOp_keeps : KeepsShared vm (arithOp f vm) :=
  keeps_guard fun _ => keeps_guard fun _ => applyTwo_keeps

theorem divOp_keeps : KeepsShared vm (divOp f vm) :=
  keeps_guard fun _ => keeps_guard fun _ => keeps_bind fun _ _ => keeps_guard fun _ => applyTwo_keeps

theorem unaryOp_keeps {f : ObjectT → ObjectT} : KeepsShared vm (unaryOp f vm) :=
  keeps_guard fun _ => keeps_bind fun _ _ => keeps_stackSet fun _ => rfl

theorem condJump_keeps (taken : BitVec 32 → Bool) : KeepsShared vm (condJump taken inst vm) :=
  keeps_guard fun _ => keeps_guard fun _ => keeps_bind fun _ _ => Post.ite (fun _ => rfl) fun _ => rfl

theorem loadTop_keeps {f : Addr → Except Fault (BitVec 64)} : KeepsShared vm (loadTop f vm) :=
  keeps_bind fun _ _ => keeps_bind fun _ _ => keeps_stackSet fun _ => rfl

theorem heapSet_keeps {env : Env W} {width offset : BitVec 32} : KeepsShared vm (heapSet env width offset vm) := by
  refine keeps_bind fun _ _ => keeps_bind fun _ _ => keeps_guard fun _ => Post.ite (fun _ => ?_) fun _ => rfl
  refine keeps_bind fun _ _ => keeps_bind fun _ _ => keeps_bind fun heap hheap => ?_
  exact congrArg (Prod.mk vm.globalVars) (storeValue_descriptors hheap)

end Families

/-- A native call leaves the descriptors: it changes values, the library's state and the output. -/
theorem nativeCall_shared {lib : NativeLib W} {id : Nat} {rvalue : Option (BitVec 64)} {avalues : List (BitVec 64)}
    {r : Vm W × BitVec 64} (h : tciNativeCall lib w id rvalue avalues = .ok r) : r.1.shared = w.shared := by
  unfold tciNativeCall at h
  obtain ⟨f, -, h⟩ := Except.bind_ok h
  obtain ⟨name, -, h⟩ := Except.bind_ok h
  dsimp only at h
  split at h
  · cases h
  · cases h
    rfl
  · split at h
    · cases h
    · obtain ⟨args, -, h⟩ := Except.bind_ok h
      split at h
      · cases h
        rfl
      · obtain ⟨ret, -, h⟩ := Except.bind_ok h
        cases h
        rfl

theorem opNative_keeps (env : Env W) : KeepsShared vm (opNative env inst vm) := by
  refine keeps_bind fun f _ => keeps_bind fun _ _ => keeps_guard fun _ => keeps_guard fun _ => keeps_guard fun _ => ?_
  refine keeps_bind fun vargs _ => Post.ite (fun _ => ?_) fun _ => ?_
  · refine keeps_bind fun r hr => ?_
    have hshared := nativeCall_shared hr
    exact hshared
  · refine keeps_bind fun r hr => ?_
    have hshared := nativeCall_shared hr
    exact pushWith_keeps hshared

/-! ## The switch -/

/-- Every instruction but the two writers leaves both. -/
theorem tvmExecOp_shared (env : Env W) {op : OpType} (hgstore : op ≠ .gstore) (hhalloc : op ≠ .halloc) :
    KeepsShared vm (tvmExecOp env op inst vm) := by
  -- one case for each opcode, along its guards
  cases op with
  | gstore => exact absurd rfl hgstore
  | halloc => exact absurd rfl hhalloc
  | nop | halt => exact rfl
  | push => exact keeps_guard fun _ => pushWith_keeps rfl
  | pop => exact keeps_guard fun _ => rfl
  | add | sub | mult | addf | subf | multf | divf => exact arithOp_keeps
  | div | mod => exact divOp_keeps
  | dup => exact keeps_guard fun _ => keeps_guard fun _ => keeps_bind fun _ _ => pushWith_keeps rfl
  | cln =>
    exact keeps_guard fun _ => keeps_guard fun _ => keeps_guard fun _ => keeps_bind fun _ _ => pushWith_keeps rfl
  | swap =>
    refine keeps_guard fun _ => keeps_guard fun _ => keeps_bind fun _ _ => keeps_bind fun _ _ => ?_
    exact keeps_stackSet fun _ => keeps_stackSet fun _ => rfl
  | inc | incf | dec | decf | ci2f | ci2u | cf2i | cf2u | cu2i | cu2f | not | bnot => exact unaryOp_keeps
  | jmp => exact keeps_guard fun _ => rfl
  | jz => exact condJump_keeps (· == 0)
  | jnz => exact condJump_keeps (· != 0)
  | call => exact keeps_guard fun _ => keeps_guard fun _ => keeps_bind fun _ _ => keeps_bind fun _ _ => rfl
  | ret => exact keeps_guard fun _ => keeps_bind fun _ _ => keeps_bind fun _ _ => rfl
  | gt | gtf | lt | ltf | eq | eqf | ge | gef | le | lef | and | or => exact arithOp_keeps
  | band | bor | lshft | rshft => exact binaryOp_keeps
  | loadc =>
    refine keeps_guard fun _ => keeps_guard fun _ => keeps_bind fun _ _ => Post.ite (fun _ => trivial) fun _ => ?_
    exact pushWith_keeps rfl
  | aloadc => exact keeps_guard fun _ => keeps_guard fun _ => keeps_bind fun _ _ => pushWith_keeps rfl
  | load =>
    exact keeps_guard fun _ => keeps_guard fun _ => keeps_bind fun _ _ => keeps_bind fun _ _ => pushWith_keeps rfl
  | store =>
    refine keeps_guard fun _ => keeps_guard fun _ => keeps_bind fun _ _ => ?_
    exact keeps_bind fun _ _ => keeps_bind fun _ _ => rfl
  | gload => exact keeps_guard fun _ => keeps_guard fun _ => keeps_bind fun _ _ => pushWith_keeps rfl
  | deref => exact keeps_guard fun _ => loadTop_keeps
  | derefb =>
    refine keeps_guard fun _ => keeps_guard fun _ => Post.ite (fun _ => loadTop_keeps) fun _ => ?_
    exact Post.ite (fun _ => loadTop_keeps) fun _ => Post.ite (fun _ => loadTop_keeps) fun _ => rfl
  | hset | hsetof => exact keeps_guard fun _ => keeps_bind fun _ _ => keeps_bind fun _ _ => heapSet_keeps
  | puts => exact keeps_guard fun _ => keeps_bind fun _ _ => keeps_bind fun _ _ => rfl
  | putc => exact keeps_guard fun _ => keeps_bind fun _ _ => rfl
  | native => exact opNative_keeps env

/-- Every instruction but `gstore` leaves the global variables. -/
theorem tvmExecOp_keeps (env : Env W) {op : OpType} (h : op ≠ .gstore) : KeepsGlobals vm (tvmExecOp env op inst vm) := by
  by_cases hhalloc : op = .halloc
  · subst hhalloc
    refine Post.ite (fun _ => rfl) fun _ => Post.bind_any (fun _ => trivial) fun _ => ?_
    refine Post.bind_any (fun _ => trivial) fun _ => Post.bind_any (fun _ => trivial) fun _ => ?_
    refine Post.bind (Post.intro (fun _ _ => trivial) fun w hw => ?_)
    obtain ⟨stack, -, rfl⟩ := Except.map_eq_ok hw
    exact rfl
  · exact (tvmExecOp_shared env h hhalloc).mono (fun _ he => he) fun _ hr => congrArg Prod.fst hr

/-- Every instruction but `halloc` leaves the descriptors. -/
theorem tvmExecOp_descriptors (env : Env W) {op : OpType} (h : op ≠ .halloc) :
    KeepsDescriptors vm (tvmExecOp env op inst vm) := by
  by_cases hgstore : op = .gstore
  · subst hgstore
    refine Post.ite (fun _ => rfl) fun _ => Post.ite (fun _ => rfl) fun _ => Post.bind_any (fun _ => trivial) fun _ => ?_
    exact Post.bind_any (fun _ => trivial) fun _ => rfl
  · exact (tvmExecOp_shared env hgstore h).mono (fun _ he => he) fun _ hr => congrArg Prod.snd hr

end TileVm
