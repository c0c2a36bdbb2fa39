/-
Where the objects of a state come from. One step copies objects as a whole, makes new ones from the
operand of `push` or the address of a new block, or overwrites the payload of a slot and leaves
its tag; which slot that is can be read off the state before the step.
-/
import TileVm.Vm.Chain
import TileVm.Vm.Handles

namespace TileVm

open Except (Post)

variable {W : Type} {env : Env W} {op : OpType} {inst : Opcode} {vm w : Vm W} {o : ObjectT}

/-- An object in use: in a slot of the stack, a local variable of a frame, or a global variable. -/
def Vm.InUse (vm : Vm W) (o : ObjectT) : Prop :=
  (∃ i < vm.sp, vm.stack.get? i = some o) ∨
    (∃ a f i, vm.frames a = some f ∧ f.localVars.get? i = some o) ∨ ∃ i, vm.globalVars.get? i = some o

/-- The slot whose payload an instruction overwrites and whose tag it leaves. -/
def inPlaceSlot (op : OpType) (inst : Opcode) (vm : Vm W) : Option Nat :=
  match op with
  | .add | .sub | .mult | .div | .mod | .addf | .subf | .multf | .divf => some (vm.sp - 2)
  | .gt | .gtf | .lt | .ltf | .eq | .eqf | .ge | .gef | .le | .lef | .and | .or => some (vm.sp - 2)
  | .band | .bor | .lshft | .rshft => some (vm.sp - 2)
  | .inc | .incf | .dec | .decf | .ci2f | .ci2u | .cf2i | .cf2u | .cu2i | .cu2f | .not | .bnot => some (vm.sp - 1)
  | .deref | .derefb => some (vm.sp - 1)
  | .dup | .loadc | .aloadc => some vm.sp
  | .native =>
    match vm.program.cfun inst.operand.ui32.toNat with
    | .ok f => if f.rtype = CType.void.code then none else some (vm.sp - f.acount)
    | .error _ => none
  | _ => none

/-- What an object in use after a step is. -/
inductive Origin (env : Env W) (op : OpType) (inst : Opcode) (vm : Vm W) (o : ObjectT) : Prop
  | kept (was : vm.InUse o)
  | fresh (eq : o = .zero)
  | operand (is : op = .push) (eq : o = inst.operand)
  | written {i : Nat} {s : ObjectT} (place : inPlaceSlot op inst vm = some i) (slot : vm.stack.get? i = some s)
      (tag : o.type = s.type)
  | block {heap : TgcHeap} (is : op = .halloc)
      (made : tgcCreateBlock env.heap vm.heap vm.hallocSize vm.hallocPointers = .ok (o.ui64, heap))

/-- The objects in use in `w` come from a step of `op` in `vm`. -/
def Draws (env : Env W) (op : OpType) (inst : Opcode) (vm w : Vm W) : Prop := ∀ o, w.InUse o → Origin env op inst vm o

/-- `x` faults or returns a state with such objects. -/
abbrev DrawsPost (env : Env W) (op : OpType) (inst : Opcode) (vm : Vm W) (x : Except Fault (Ret W)) : Prop :=
  Post (fun _ => True) (fun r => Draws env op inst vm r.2) x

/-! ## States -/

namespace Draws

theorem refl : Draws env op inst vm vm := fun _ ho => .kept ho

/-- Objects popped are not in use. -/
theorem pop (h : Draws env op inst vm w) {sp : Nat} (hsp : sp ≤ w.sp) : Draws env op inst vm { w with sp } := by
  rintro o (⟨i, hi, hget⟩ | hvar)
  · exact h o (.inl ⟨i, Nat.lt_of_lt_of_le hi hsp, hget⟩)
  · exact h o (.inr hvar)

theorem set (h : Draws env op inst vm w) (i : Nat) (ho : Origin env op inst vm o) :
    Draws env op inst vm { w with stack := w.stack.put i o } := by
  rintro o' (⟨j, hj, hget⟩ | hvar)
  · by_cases hij : j = i
    · subst hij
      rw [CArray.get?_put_self _ _ (CArray.get?_lt hget)] at hget
      cases hget
      exact ho
    · rw [CArray.get?_put_of_ne _ _ hij] at hget
      exact h o' (.inl ⟨j, hj, hget⟩)
  · exact h o' (.inr hvar)

theorem push (h : Draws env op inst vm w) (ho : Origin env op inst vm o) :
    Draws env op inst vm { w with stack := w.stack.put w.sp o, sp := w.sp + 1 } := by
  rintro o' (⟨j, hj, hget⟩ | hvar)
  · by_cases hij : j = w.sp
    · subst hij
      rw [CArray.get?_put_self _ _ (CArray.get?_lt hget)] at hget
      cases hget
      exact ho
    · rw [CArray.get?_put_of_ne _ _ hij] at hget
      exact h o' (.inl ⟨j, Nat.lt_of_le_of_ne (Nat.le_of_lt_succ hj) hij, hget⟩)
  · exact h o' (.inr hvar)

/-- Frames whose local variables have an origin. -/
theorem frames (h : Draws env op inst vm w) (frame : Addr) {frames : FrameStore}
    (hf : ∀ a f i o, frames a = some f → f.localVars.get? i = some o → Origin env op inst vm o) :
    Draws env op inst vm { w with frame, frames } := by
  rintro o (hstack | ⟨a, f, i, hframe, hget⟩ | hglobal)
  · exact h o (.inl hstack)
  · exact hf a f i o hframe hget
  · exact h o (.inr (.inr hglobal))

theorem global (h : Draws env op inst vm w) (i : Nat) (ho : Origin env op inst vm o) :
    Draws env op inst vm { w with globalVars := w.globalVars.put i o } := by
  rintro o' (hstack | hlocal | ⟨j, hget⟩)
  · exact h o' (.inl hstack)
  · exact h o' (.inr (.inl hlocal))
  · by_cases hij : j = i
    · subst hij
      rw [CArray.get?_put_self _ _ (CArray.get?_lt hget)] at hget
      cases hget
      exact ho
    · rw [CArray.get?_put_of_ne _ _ hij] at hget
      exact h o' (.inr (.inr ⟨j, hget⟩))

end Draws

/-! ## Rules -/

theorem draws_bind {α : Type} {x : Except Fault α} {f : α → Except Fault (Ret W)}
    (h : ∀ a, x = .ok a → DrawsPost env op inst vm (f a)) : DrawsPost env op inst vm (x >>= f) :=
  Post.bind (Post.intro (fun _ _ => trivial) h)

/-- A guard raises in the state it was given. -/
theorem draws_guard {c : Prop} [Decidable c] {e : TvmException} {x : Except Fault (Ret W)}
    (h : ¬ c → DrawsPost env op inst vm x) : DrawsPost env op inst vm (if c then raise e vm else x) :=
  Post.ite (fun _ => Draws.refl) h

/-- A step that only pops. -/
theorem draws_popped (hstack : w.stack = vm.stack) (hsp : w.sp ≤ vm.sp) (hframes : w.frames = vm.frames)
    (hglobals : w.globalVars = vm.globalVars) : DrawsPost env op inst vm (done w) := by
  rintro o (⟨i, hi, hget⟩ | ⟨a, f, i, hframe, hget⟩ | ⟨i, hget⟩)
  · exact .kept (.inl ⟨i, Nat.lt_of_lt_of_le hi hsp, hstack ▸ hget⟩)
  · exact .kept (.inr (.inl ⟨a, f, i, hframes ▸ hframe, hget⟩))
  · exact .kept (.inr (.inr ⟨i, hglobals ▸ hget⟩))

theorem draws_stackAt {i : Nat} {f : ObjectT → Except Fault (Ret W)}
    (h : ∀ o, w.stack.get? i = some o → DrawsPost env op inst vm (f o)) : DrawsPost env op inst vm (w.stackAt i >>= f) :=
  draws_bind fun o ho => h o (CArray.load_ok.1 ho)

theorem draws_stackSet {i : Nat} {f : Vm W → Except Fault (Ret W)}
    (h : DrawsPost env op inst vm (f { w with stack := w.stack.put i o })) :
    DrawsPost env op inst vm (w.stackSet i o >>= f) := by
  apply draws_bind
  intro a ha
  obtain ⟨stack, hstack, rfl⟩ := Except.map_eq_ok ha
  obtain ⟨-, rfl⟩ := CArray.store_ok.1 hstack
  exact h

theorem pushWith_draws {f : ObjectT → Except Fault ObjectT} (h : Draws env op inst vm w)
    (ho : ∀ old o, w.stack.get? w.sp = some old → f old = .ok o → Origin env op inst vm o) :
    DrawsPost env op inst vm (pushWith f w) :=
  draws_stackAt fun old hold => draws_bind fun _ hnew => draws_stackSet (h.push (ho old _ hold hnew))

/-- A push that keeps the tag of the slot above the stack. -/
theorem pushInto_draws {g : ObjectT → ObjectT} (h : Draws env op inst vm w) (hg : ∀ old, (g old).type = old.type)
    (hplace : inPlaceSlot op inst vm = some w.sp) (hstack : w.stack = vm.stack) :
    DrawsPost env op inst vm (pushWith (fun old => .ok (g old)) w) := by
  apply pushWith_draws h
  rintro old o hold ⟨⟩
  rw [hstack] at hold
  exact .written hplace hold (hg old)

/-! ## Families -/

/-- An operation leaves the tag of its first operand. -/
def KeepsTag (f : ObjectT → ObjectT → Except Fault ObjectT) : Prop := ∀ a b c, f a b = .ok c → c.type = a.type

theorem word2_tag (f : BitVec 32 → BitVec 32 → BitVec 32) : KeepsTag (word2 f) := by
  rintro a b c ⟨⟩
  rfl

theorem test2_tag (f : BitVec 32 → BitVec 32 → Bool) : KeepsTag (test2 f) := by
  rintro a b c ⟨⟩
  rfl

theorem divWord_tag (f : BitVec 32 → BitVec 32 → BitVec 32) : KeepsTag (divWord f) := by
  intro a b c h
  unfold divWord at h
  split at h
  · cases h
  · cases h
    rfl

theorem shiftWord_tag (f : BitVec 32 → Nat → BitVec 32) : KeepsTag (shiftWord f) := by
  intro a b c h
  unfold shiftWord at h
  split at h
  · cases h
  · cases h
    rfl

section Families

variable {f : ObjectT → ObjectT → Except Fault ObjectT}

theorem applyTwo_draws (hf : KeepsTag f) (hplace : inPlaceSlot op inst vm = some (vm.sp - 2)) :
    DrawsPost env op inst vm (applyTwo f vm) := by
  refine draws_stackAt fun b _ => draws_stackAt fun a ha => draws_bind fun c hc => draws_stackSet ?_
  exact (Draws.refl.set _ (.written hplace ha (hf a b c hc))).pop (Nat.sub_le ..)

theorem binaryOp_draws (hf : KeepsTag f) (hplace : inPlaceSlot op inst vm = some (vm.sp - 2)) :
    DrawsPost env op inst vm (binaryOp f vm) :=
  draws_guard fun _ => applyTwo_draws hf hplace

theorem arithOp_draws (hf : KeepsTag f) (hplace : inPlaceSlot op inst vm = some (vm.sp - 2)) :
    DrawsPost env op inst vm (arithOp f vm) :=
  draws_guard fun _ => draws_guard fun _ => applyTwo_draws hf hplace

theorem divOp_draws (hf : KeepsTag f) (hplace : inPlaceSlot op inst vm = some (vm.sp - 2)) :
    DrawsPost env op inst vm (divOp f vm) :=
  draws_guard fun _ => draws_guard fun _ => draws_stackAt fun _ _ => draws_guard fun _ => applyTwo_draws hf hplace

theorem unaryOp_draws {f : ObjectT → ObjectT} (hf : ∀ a, (f a).type = a.type)
    (hplace : inPlaceSlot op inst vm = some (vm.sp - 1)) : DrawsPost env op inst vm (unaryOp f vm) :=
  draws_guard fun _ => draws_stackAt fun a ha => draws_stackSet (Draws.refl.set _ (.written hplace ha (hf a)))

theorem loadTop_draws {f : Addr → Except Fault (BitVec 64)} (hplace : inPlaceSlot op inst vm = some (vm.sp - 1)) :
    DrawsPost env op inst vm (loadTop f vm) :=
  draws_stackAt fun a ha => draws_bind fun v _ => draws_stackSet
    (Draws.refl.set _ (.written (o := a.setUi64 v) hplace ha rfl))

theorem condJump_draws (taken : BitVec 32 → Bool) : DrawsPost env op inst vm (condJump taken inst vm) := by
  refine draws_guard fun _ => draws_guard fun _ => draws_stackAt fun _ _ => ?_
  have hsp : vm.sp - 1 ≤ vm.sp := Nat.sub_le ..
  exact Post.ite (fun _ => draws_popped rfl hsp rfl rfl) fun _ => draws_popped rfl hsp rfl rfl

theorem heapSet_draws {width offset : BitVec 32} : DrawsPost env op inst vm (heapSet env width offset vm) := by
  refine draws_stackAt fun _ _ => draws_bind fun _ _ => draws_guard fun _ => Post.ite (fun _ => ?_) fun _ => Draws.refl
  refine draws_bind fun _ _ => draws_stackAt fun _ _ => draws_bind fun _ _ => ?_
  exact draws_popped rfl (Nat.sub_le ..) rfl rfl

end Families

/-! ## Control, variables, blocks and native calls -/

theorem opCall_draws : DrawsPost env op inst vm (opCall env inst vm) := by
  refine draws_guard fun _ => draws_guard fun _ => draws_bind fun _ _ => draws_bind ?_
  rintro ⟨frame, frames⟩ hr
  obtain ⟨n, hn, -, -, hnew, hcaller, hother⟩ := tvmFrameNext_ok hr
  suffices h : Draws env op inst vm { vm with frame, frames } from h
  refine Draws.refl.frames frame fun a f i o ha ho => ?_
  by_cases hnewFrame : a = frame
  · rw [hnewFrame, hnew] at ha
    cases ha
    rw [CArray.get?_fill _ (CArray.get?_lt ho)] at ho
    cases ho
    exact .fresh rfl
  · by_cases hcallerFrame : a = vm.frame
    · rw [hcallerFrame, hcaller] at ha
      cases ha
      exact .kept (.inr (.inl ⟨_, n, i, hn, ho⟩))
    · rw [hother a hcallerFrame hnewFrame] at ha
      exact .kept (.inr (.inl ⟨a, f, i, ha, ho⟩))

/-- A return leaves the frames that it does not free. -/
theorem framePrev_sub {fs fs' : FrameStore} {a b c : Addr} {f : TvmFrame} (h : tvmFramePrev fs a = .ok (b, fs'))
    (hf : fs' c = some f) : fs c = some f := by
  obtain ⟨n, -, h⟩ := Except.bind_ok h
  obtain ⟨p, -, h⟩ := Except.bind_ok h
  obtain ⟨m, -, h⟩ := Except.bind_ok h
  obtain ⟨next, -, h⟩ := Except.bind_ok h
  obtain ⟨fs₁, hfree, h⟩ := Except.bind_ok h
  cases h
  unfold tvmFrameFree at hfree
  split at hfree
  · cases hfree
    exact hf
  · split at hfree
    · cases hfree
      by_cases hc : c = next
      · rw [hc, FrameStore.erase_self] at hf
        cases hf
      · rwa [FrameStore.erase_of_ne _ hc] at hf
    · cases hfree

theorem opRet_draws : DrawsPost env op inst vm (opRet vm) := by
  refine draws_guard fun _ => draws_bind fun _ _ => draws_bind ?_
  rintro ⟨frame, frames⟩ hr
  suffices h : Draws env op inst vm { vm with frame, frames } from h
  exact Draws.refl.frames frame fun a f i o ha ho => .kept (.inr (.inl ⟨a, f, i, framePrev_sub hr ha, ho⟩))

theorem opStore_draws : DrawsPost env op inst vm (opStore inst vm) := by
  refine draws_guard fun hsp => draws_guard fun _ => draws_stackAt fun o ho => draws_bind fun f hf => ?_
  refine draws_bind fun localVars hlocals => ?_
  obtain ⟨-, rfl⟩ := CArray.store_ok.1 hlocals
  have hf := FrameStore.load_ok.1 hf
  have htop : vm.InUse o := .inl ⟨vm.sp - 1, by omega, ho⟩
  refine (Draws.refl.pop (Nat.sub_le vm.sp 1)).frames vm.frame fun a g i o' ha ho' => ?_
  by_cases hcur : a = vm.frame
  · rw [hcur] at ha
    cases (FrameStore.set_self ..).symm.trans ha
    by_cases hi : i = inst.operand.ui32.toNat
    · subst hi
      rw [CArray.get?_put_self _ _ (CArray.get?_lt ho')] at ho'
      cases ho'
      exact .kept htop
    · rw [CArray.get?_put_of_ne _ _ hi] at ho'
      exact .kept (.inr (.inl ⟨_, f, i, hf, ho'⟩))
  · exact .kept (.inr (.inl ⟨a, g, i, (FrameStore.set_of_ne _ _ hcur).symm.trans ha, ho'⟩))

theorem opGstore_draws : DrawsPost env op inst vm (opGstore inst vm) := by
  refine draws_guard fun hsp => draws_guard fun _ => draws_stackAt fun o ho => draws_bind fun globalVars hglobals => ?_
  obtain ⟨-, rfl⟩ := CArray.store_ok.1 hglobals
  have htop : vm.InUse o := .inl ⟨vm.sp - 1, by omega, ho⟩
  exact (Draws.refl.pop (Nat.sub_le vm.sp 1)).global _ (.kept htop)

theorem opHalloc_draws : DrawsPost env .halloc inst vm (opHalloc env vm) := by
  refine draws_guard fun _ => draws_stackAt fun size hsize => draws_stackAt fun count hcount => ?_
  apply draws_bind
  rintro ⟨addr, heap⟩ hr
  have hmade : tgcCreateBlock env.heap vm.heap vm.hallocSize vm.hallocPointers = .ok (addr, heap) := by
    unfold Vm.hallocSize Vm.hallocPointers Vm.slot
    rw [hsize, hcount]
    exact hr
  have hblock : Origin env .halloc inst vm ⟨StackObjType.dataAddress.code, addr⟩ := .block rfl hmade
  exact draws_stackSet ((Draws.refl.set _ hblock).pop (Nat.sub_le vm.sp 1))

/-- A native call changes no object. -/
theorem nativeCall_draws {lib : NativeLib W} {id : Nat} {rvalue : Option (BitVec 64)} {avalues : List (BitVec 64)}
    {f : Vm W × BitVec 64 → Except Fault (Ret W)}
    (h : ∀ heap out world ret, DrawsPost env op inst vm (f ({ w with heap, out, world }, ret))) :
    DrawsPost env op inst vm (tciNativeCall lib w id rvalue avalues >>= f) :=
  Post.bind ((show Meets vm _ _ from nativeCall_meets h).mono (fun _ _ => trivial) fun _ hr => hr)

theorem opNative_draws : DrawsPost env .native inst vm (opNative env inst vm) := by
  refine draws_bind fun f hf => draws_bind fun _ _ => draws_guard fun _ => draws_guard fun _ => draws_guard fun _ => ?_
  have hpop : Draws env .native inst vm (vm.setSp (vm.sp - f.acount)) := Draws.refl.pop (Nat.sub_le ..)
  refine draws_bind fun _ _ => Post.ite (fun _ => ?_) fun hret => ?_
  · exact nativeCall_draws fun _ _ _ _ => hpop
  · refine nativeCall_draws fun heap out world ret => pushInto_draws hpop (fun _ => rfl) ?_ rfl
    show inPlaceSlot .native inst vm = some (vm.sp - f.acount)
    unfold inPlaceSlot
    rw [hf]
    exact if_neg hret

/-! ## The switch -/

/-- The objects in use after an instruction come from it. -/
theorem tvmExecOp_draws : DrawsPost env op inst vm (tvmExecOp env op inst vm) := by
  cases op with
  | nop | halt => exact draws_popped rfl (Nat.le_refl _) rfl rfl
  | push =>
    refine draws_guard fun _ => pushWith_draws Draws.refl ?_
    rintro old o - ⟨⟩
    exact .operand rfl rfl
  | pop => exact draws_guard fun _ => draws_popped rfl (Nat.sub_le ..) rfl rfl
  | add | sub | mult | addf | subf | multf | divf => exact arithOp_draws (word2_tag _) rfl
  | div | mod => exact divOp_draws (divWord_tag _) rfl
  | gt | gtf | lt | ltf | eq | eqf | ge | gef | le | lef | and | or => exact arithOp_draws (test2_tag _) rfl
  | band | bor => exact binaryOp_draws (word2_tag _) rfl
  | lshft | rshft => exact binaryOp_draws (shiftWord_tag _) rfl
  | dup =>
    refine draws_guard fun _ => draws_guard fun _ => draws_stackAt fun a _ => ?_
    exact pushInto_draws Draws.refl (fun _ => rfl) rfl rfl
  | cln =>
    refine draws_guard fun hdepth => draws_guard fun _ => draws_guard fun _ => draws_stackAt fun a ha => ?_
    apply pushWith_draws Draws.refl
    rintro old o - ⟨⟩
    exact .kept (.inl ⟨_, by omega, ha⟩)
  | swap =>
    refine draws_guard fun hdepth => draws_guard fun _ => draws_stackAt fun temp htemp => draws_stackAt fun a ha => ?_
    have htop : vm.InUse temp := .inl ⟨_, by omega, htemp⟩
    have hbelow : vm.InUse a := .inl ⟨_, by omega, ha⟩
    exact draws_stackSet (draws_stackSet ((Draws.refl.set _ (.kept hbelow)).set _ (.kept htop)))
  | inc | incf | dec | decf | ci2f | ci2u | cf2i | cf2u | cu2i | cu2f | not | bnot => exact unaryOp_draws (fun _ => rfl) rfl
  | jmp => exact draws_guard fun _ => draws_popped rfl (Nat.le_refl _) rfl rfl
  | jz => exact condJump_draws (· == 0)
  | jnz => exact condJump_draws (· != 0)
  | call => exact opCall_draws
  | ret => exact opRet_draws
  | loadc =>
    refine draws_guard fun _ => draws_guard fun _ => draws_bind fun _ _ => Post.ite (fun _ => trivial) fun _ => ?_
    exact pushInto_draws Draws.refl (fun _ => rfl) rfl rfl
  | aloadc =>
    refine draws_guard fun _ => draws_guard fun _ => draws_bind fun _ _ => ?_
    exact pushInto_draws Draws.refl (fun _ => rfl) rfl rfl
  | load =>
    refine draws_guard fun _ => draws_guard fun _ => draws_bind fun f hf => draws_bind fun o ho => ?_
    apply pushWith_draws Draws.refl
    rintro old o' - ⟨⟩
    exact .kept (.inr (.inl ⟨_, f, _, FrameStore.load_ok.1 hf, CArray.load_ok.1 ho⟩))
  | store => exact opStore_draws
  | gload =>
    refine draws_guard fun _ => draws_guard fun _ => draws_bind fun o ho => pushWith_draws Draws.refl ?_
    rintro old o' - ⟨⟩
    exact .kept (.inr (.inr ⟨_, CArray.load_ok.1 ho⟩))
  | gstore => exact opGstore_draws
  | halloc => exact opHalloc_draws
  | deref => exact draws_guard fun _ => loadTop_draws rfl
  | derefb =>
    refine draws_guard fun _ => draws_guard fun _ => Post.ite (fun _ => loadTop_draws rfl) fun _ => ?_
    exact Post.ite (fun _ => loadTop_draws rfl) fun _ => Post.ite (fun _ => loadTop_draws rfl) fun _ => Draws.refl
  | hset | hsetof => exact draws_guard fun _ => draws_bind fun _ _ => draws_bind fun _ _ => heapSet_draws
  | puts =>
    refine draws_guard fun _ => draws_bind fun _ _ => draws_bind fun _ _ => ?_
    exact draws_popped rfl (Nat.sub_le ..) rfl rfl
  | putc => exact draws_guard fun _ => draws_bind fun _ _ => draws_popped rfl (Nat.sub_le ..) rfl rfl
  | native => exact opNative_draws

end TileVm
