/-
The machine on another stack: the same state with some objects beneath the stack, or with other
objects in the popped slots. No instruction addresses the stack but from its top, so a step on the
one stack is matched by a step on the other.
-/
import TileVm.Lib.Relate
import TileVm.Vm.Calls

namespace TileVm

open Except (Follows)

variable {W : Type}

/-! ## Shifted stacks -/

/-- `stack'` has `base` at the bottom and the slots of `stack` above it: those below `sp`, and
with `dead` the popped ones as well. -/
structure Shifted (base : List ObjectT) (dead : Bool) (stack stack' : CArray ObjectT tvmStackCapacity) (sp : Nat) :
    Prop where
  below : ∀ i < base.length, stack'.get? i = base[i]?
  slots : ∀ i, dead = true ∨ i < sp → base.length + i < tvmStackCapacity →
    stack'.get? (base.length + i) = stack.get? i

namespace Shifted

variable {base : List ObjectT} {dead : Bool} {stack stack' : CArray ObjectT tvmStackCapacity} {sp sp' : Nat}

theorem pop (h : Shifted base dead stack stack' sp) (hsp : sp' ≤ sp) : Shifted base dead stack stack' sp' := by
  constructor
  · exact h.below
  · rintro i (hd | hi) hlt
    · exact h.slots i (.inl hd) hlt
    · exact h.slots i (.inr (by omega)) hlt

/-- Corresponding slots are written, and no slot but the written one becomes live. -/
theorem put {i : Nat} (h : Shifted base dead stack stack' sp) (o : ObjectT)
    (hsp : ∀ j < sp', j < sp ∨ j = i) :
    Shifted base dead (stack.put i o) (stack'.put (base.length + i) o) sp' := by
  constructor
  · intro j hj
    rw [CArray.get?_put_of_ne _ _ (by omega)]
    exact h.below j hj
  · intro j hj hlt
    by_cases hji : j = i
    · subst hji
      rw [CArray.get?_put_self _ _ hlt, CArray.get?_put_self _ _ (by omega)]
    · rw [CArray.get?_put_of_ne _ _ (by omega), CArray.get?_put_of_ne _ _ hji]
      refine h.slots j (hj.imp id fun hj => ?_) hlt
      exact (hsp j hj).resolve_right hji

end Shifted

/-- `vm` on another stack, `depth` slots further up. -/
def Vm.over (vm : Vm W) (depth : Nat) (stack : CArray ObjectT tvmStackCapacity) : Vm W :=
  { vm with stack, sp := depth + vm.sp }

/-- `vm'` is `vm` on a shifted stack. -/
def Alike (base : List ObjectT) (dead : Bool) (vm vm' : Vm W) : Prop :=
  ∃ stack', vm' = vm.over base.length stack' ∧ Shifted base dead vm.stack stack' vm.sp

/-- `y`, run on the shifted stack, matches `x`: it succeeds when `x` does, in the shifted state.
When nothing is inserted, exceptions and faults agree as well. -/
abbrev Matches (base : List ObjectT) (dead : Bool) (x y : Except Fault (Ret W)) : Prop :=
  Follows (base = []) (fun r => base = [] ∨ r.1 = .ok) (fun r r' => r'.1 = r.1 ∧ Alike base dead r.2 r'.2) x y

variable {base : List ObjectT} {dead : Bool} {vm : Vm W} {stack' : CArray ObjectT tvmStackCapacity}

/-! ## Rules -/

theorem done_matches {w w' : Vm W} (h : Alike base dead w w') : Matches base dead (done w) (done w') :=
  .ok fun _ => ⟨rfl, h⟩

/-- A guard that the deeper stack passes more easily; on an equally deep one it decides alike. -/
theorem guard_matches {c c' : Prop} [Decidable c] [Decidable c'] {e : TvmException} {x y : Except Fault (Ret W)}
    (h : Shifted base dead vm.stack stack' vm.sp) (he : e ≠ .ok) (hc : c' → c) (hs : base = [] → c → c')
    (hx : ¬ c → Matches base dead x y) :
    Matches base dead (if c then raise e vm else x) (if c' then raise e (vm.over base.length stack') else y) := by
  by_cases hcond : c
  · rw [if_pos hcond]
    by_cases hbase : base = []
    · rw [if_pos (hs hbase hcond)]
      exact .ok fun _ => ⟨rfl, stack', rfl, h⟩
    · exact .skip hbase fun hr => hr.elim hbase he
  · rw [if_neg hcond, if_neg fun h' => hcond (hc h')]
    exact hx hcond

/-- A guard on anything but the stack. -/
theorem same_guard_matches {c : Prop} [Decidable c] {e : TvmException} {x y : Except Fault (Ret W)}
    (h : Shifted base dead vm.stack stack' vm.sp) (he : e ≠ .ok) (hx : ¬ c → Matches base dead x y) :
    Matches base dead (if c then raise e vm else x) (if c then raise e (vm.over base.length stack') else y) :=
  guard_matches h he id (fun _ => id) hx

theorem lt_guard_matches {n : Nat} {e : TvmException} {x y : Except Fault (Ret W)}
    (h : Shifted base dead vm.stack stack' vm.sp) (he : e ≠ .ok) (hx : ¬ vm.sp < n → Matches base dead x y) :
    Matches base dead (if vm.sp < n then raise e vm else x)
      (if base.length + vm.sp < n then raise e (vm.over base.length stack') else y) := by
  refine guard_matches h he (fun hlt => by omega) (fun hb hlt => ?_) hx
  subst hb
  simpa using hlt

theorem le_guard_matches {n : Nat} {e : TvmException} {x y : Except Fault (Ret W)}
    (h : Shifted base dead vm.stack stack' vm.sp) (he : e ≠ .ok) (hx : ¬ vm.sp ≤ n → Matches base dead x y) :
    Matches base dead (if vm.sp ≤ n then raise e vm else x)
      (if base.length + vm.sp ≤ n then raise e (vm.over base.length stack') else y) := by
  refine guard_matches h he (fun hle => by omega) (fun hb hle => ?_) hx
  subst hb
  simpa using hle

/-- What was inserted leaves room for one more object. -/
abbrev Room (base : List ObjectT) (sp : Nat) : Prop := base = [] ∨ base.length + sp < tvmStackCapacity

theorem Room.mono {sp sp' : Nat} (h : Room base sp) (hle : sp' ≤ sp) : Room base sp' :=
  h.imp id fun h => by omega

theorem overflow_matches {x y : Except Fault (Ret W)} (h : Shifted base dead vm.stack stack' vm.sp)
    (hroom : Room base vm.sp) (hx : ¬ tvmStackCapacity ≤ vm.sp → Matches base dead x y) :
    Matches base dead (if tvmStackCapacity ≤ vm.sp then raise .stackOverflow vm else x)
      (if tvmStackCapacity ≤ base.length + vm.sp then raise .stackOverflow (vm.over base.length stack') else y) := by
  refine guard_matches h (by decide) (fun hle => ?_) (fun hb hle => by omega) hx
  rcases hroom with rfl | hlt
  · simpa using hle
  · omega

theorem stackAt_of_le {i : Nat} (h : tvmStackCapacity ≤ i) : vm.stackAt i = .error (.outOfBounds .stack) := by
  unfold Vm.stackAt CArray.load
  rw [CArray.get?_of_le _ h]

theorem stackAt_live {i : Nat} (h : Shifted base dead vm.stack stack' vm.sp) (hroom : Room base vm.sp)
    (hi : i < vm.sp) : (vm.over base.length stack').stackAt (base.length + i) = vm.stackAt i := by
  by_cases hlt : base.length + i < tvmStackCapacity
  · unfold Vm.stackAt CArray.load
    rw [show (vm.over base.length stack').stack.get? _ = _ from h.slots _ (.inr hi) hlt]
  · -- outside of the array nothing is inserted, and both reads are out of bounds
    obtain rfl := hroom.resolve_right (by omega)
    rw [stackAt_of_le (by omega), stackAt_of_le (by simpa using hlt)]

/-- A read of a live slot, counted from the top. -/
theorem stackAt_over {k : Nat} (h : Shifted base dead vm.stack stack' vm.sp) (hroom : Room base vm.sp)
    (h1 : 1 ≤ k) (hk : k ≤ vm.sp) :
    (vm.over base.length stack').stackAt (base.length + vm.sp - k) = vm.stackAt (vm.sp - k) := by
  rw [Nat.add_sub_assoc hk]
  exact stackAt_live h hroom (by omega)

/-- A write to corresponding slots. -/
theorem stackSet_matches {i : Nat} {o : ObjectT} {f g : Vm W → Except Fault (Ret W)} (hroom : Room base i)
    (hf : Matches base dead (f { vm with stack := vm.stack.put i o })
      (g ({ vm with stack := vm.stack.put i o }.over base.length (stack'.put (base.length + i) o)))) :
    Matches base dead (vm.stackSet i o >>= f) ((vm.over base.length stack').stackSet (base.length + i) o >>= g) := by
  unfold Vm.stackSet CArray.store
  by_cases hlt : base.length + i < tvmStackCapacity
  · rw [if_pos hlt, if_pos (by omega)]
    exact hf
  · obtain rfl := hroom.resolve_right hlt
    rw [if_neg hlt, if_neg (by simpa using hlt)]
    exact .error _

theorem alike_next {w : Vm W} (h : Shifted base dead w.stack stack' w.sp) :
    Alike base dead w.next (w.over base.length stack').next :=
  ⟨stack', rfl, h⟩

/-- The end of a branch that has popped `k` objects. -/
theorem pop_matches {w : Vm W} {k : Nat} (hk : k ≤ w.sp) (h : Shifted base dead w.stack stack' (w.sp - k)) :
    Matches base dead (done (w.setSp (w.sp - k)).next)
      (done ((w.over base.length stack').setSp (base.length + w.sp - k)).next) := by
  refine done_matches ⟨stack', ?_, h⟩
  rw [show base.length + w.sp - k = base.length + (w.sp - k) by omega]
  rfl

/-! ## Families -/

section Families

variable (h : Shifted base dead vm.stack stack' vm.sp) (hroom : Room base vm.sp)
include h hroom

theorem applyTwo_matches (f : ObjectT → ObjectT → Except Fault ObjectT) (h2 : ¬ vm.sp < 2) :
    Matches base dead (applyTwo f vm) (applyTwo f (vm.over base.length stack')) := by
  refine .bind_same (stackAt_over h hroom (by omega) (by omega)) fun b _ => ?_
  refine .bind_same (stackAt_over h hroom (by omega) (by omega)) fun a _ => .bind_same rfl fun c _ => ?_
  show Matches _ _ _ ((vm.over base.length stack').stackSet (base.length + vm.sp - 2) c >>= _)
  rw [show base.length + vm.sp - 2 = base.length + (vm.sp - 2) by omega]
  refine stackSet_matches (hroom.mono (by omega)) (pop_matches (k := 1) (by show 1 ≤ vm.sp; omega) ?_)
  exact h.put c fun j hj => .inl (show j < vm.sp from Nat.lt_of_lt_of_le hj (Nat.sub_le _ _))

theorem binaryOp_matches (f : ObjectT → ObjectT → Except Fault ObjectT) :
    Matches base dead (binaryOp f vm) (binaryOp f (vm.over base.length stack')) :=
  lt_guard_matches h (by decide) fun h2 => applyTwo_matches h hroom f h2

theorem arithOp_matches (f : ObjectT → ObjectT → Except Fault ObjectT) :
    Matches base dead (arithOp f vm) (arithOp f (vm.over base.length stack')) :=
  lt_guard_matches h (by decide) fun h2 => overflow_matches h hroom fun _ => applyTwo_matches h hroom f h2

theorem divOp_matches (f : ObjectT → ObjectT → Except Fault ObjectT) :
    Matches base dead (divOp f vm) (divOp f (vm.over base.length stack')) := by
  refine lt_guard_matches h (by decide) fun h2 => overflow_matches h hroom fun _ => ?_
  refine .bind_same (stackAt_over h hroom (by omega) (by omega)) fun b _ => ?_
  exact same_guard_matches h (by decide) fun _ => applyTwo_matches h hroom f h2

/-- The top object is replaced. -/
theorem replaceTop_matches (o : ObjectT) (h1 : 1 ≤ vm.sp) {f g : Vm W → Except Fault (Ret W)}
    (hf : ∀ w, f w = done w.next) (hg : ∀ w, g w = done w.next) :
    Matches base dead (vm.stackSet (vm.sp - 1) o >>= f)
      ((vm.over base.length stack').stackSet (base.length + vm.sp - 1) o >>= g) := by
  rw [show base.length + vm.sp - 1 = base.length + (vm.sp - 1) by omega]
  refine stackSet_matches (hroom.mono (by omega)) ?_
  rw [hf, hg]
  exact done_matches (alike_next (h.put o fun j hj => .inl hj))

theorem unaryOp_matches (f : ObjectT → ObjectT) :
    Matches base dead (unaryOp f vm) (unaryOp f (vm.over base.length stack')) := by
  refine lt_guard_matches h (by decide) fun h1 => ?_
  refine .bind_same (stackAt_over h hroom (by omega) (by omega)) fun a _ => ?_
  exact replaceTop_matches h hroom _ (by omega) (fun _ => rfl) fun _ => rfl

theorem loadTop_matches (f : Addr → Except Fault (BitVec 64)) (h1 : 1 ≤ vm.sp) :
    Matches base dead (loadTop f vm) (loadTop f (vm.over base.length stack')) := by
  refine .bind_same (stackAt_over h hroom (by omega) h1) fun o _ => .bind_same rfl fun v _ => ?_
  exact replaceTop_matches h hroom _ h1 (fun _ => rfl) fun _ => rfl

theorem condJump_matches (taken : BitVec 32 → Bool) (inst : Opcode) :
    Matches base dead (condJump taken inst vm) (condJump taken inst (vm.over base.length stack')) := by
  refine lt_guard_matches h (by decide) fun h1 => same_guard_matches h (by decide) fun _ => ?_
  refine .bind_same (stackAt_over h hroom (k := 1) (by omega) (by omega)) fun o _ => ?_
  refine .ite Iff.rfl (fun _ => ?_) fun _ => pop_matches (by omega) (h.pop (Nat.sub_le _ _))
  refine done_matches ⟨stack', ?_, h.pop (Nat.sub_le _ _)⟩
  rw [show (vm.over base.length stack').sp - 1 = base.length + (vm.sp - 1) from Nat.add_sub_assoc (by omega) _]
  rfl

end Families

theorem pushWith_of_le {f : ObjectT → Except Fault ObjectT} (hle : tvmStackCapacity ≤ vm.sp) :
    pushWith f vm = .error (.outOfBounds .stack) :=
  Except.bind_of_error (stackAt_of_le hle)

/-- A push. What the slot held before may only show when both slots held the same. -/
theorem pushWith_matches {w : Vm W} {f : ObjectT → Except Fault ObjectT} (h : Shifted base dead w.stack stack' w.sp)
    (hroom : Room base w.sp)
    (hf : ∀ old old', w.stack.get? w.sp = some old → stack'.get? (base.length + w.sp) = some old' → f old' = f old) :
    Matches base dead (pushWith f w) (pushWith f (w.over base.length stack')) := by
  by_cases hlt : base.length + w.sp < tvmStackCapacity
  · have hold := CArray.get?_of_lt w.stack (show w.sp < _ by omega)
    have hold' := CArray.get?_of_lt stack' hlt
    have hread : w.stackAt w.sp = .ok _ := CArray.load_ok.2 hold
    have hread' : (w.over base.length stack').stackAt (w.over base.length stack').sp = .ok _ := CArray.load_ok.2 hold'
    unfold pushWith
    rw [Except.bind_of_ok hread, Except.bind_of_ok hread', hf _ _ hold hold']
    refine .bind_same rfl fun o _ => stackSet_matches (.inr hlt) ?_
    exact done_matches ⟨_, rfl, h.put o fun j hj => Nat.lt_succ_iff_lt_or_eq.1 hj⟩
  · -- both slots are outside of the array
    obtain rfl := hroom.resolve_right hlt
    have hle : tvmStackCapacity ≤ w.sp := by simpa using hlt
    rw [pushWith_of_le hle, pushWith_of_le (show tvmStackCapacity ≤ 0 + w.sp by omega)]
    exact .error _

/-- A push that overwrites the whole slot. -/
theorem push_matches {w : Vm W} (o : ObjectT) (h : Shifted base dead w.stack stack' w.sp) (hroom : Room base w.sp) :
    Matches base dead (pushWith (fun _ => .ok o) w) (pushWith (fun _ => .ok o) (w.over base.length stack')) :=
  pushWith_matches h hroom fun _ _ _ _ => rfl

/-! ## Pushes of one member -/

/-- The members of the union that a push may write alone. -/
inductive Member where
  | ui32
  | ui64
deriving DecidableEq, Repr

/-- The part of an object that a write to the member leaves. -/
def Member.rest : Member → ObjectT → Byte × BitVec 32
  | .ui32, o => (o.type, o.ui64.extractLsb' 32 32)
  | .ui64, o => (o.type, 0)

def Member.write : Member → BitVec 64 → ObjectT → ObjectT
  | .ui32, v, o => o.setUi32 (v.setWidth 32)
  | .ui64, v, o => o.setUi64 v

theorem Member.write_eq_iff (m : Member) (v : BitVec 64) (a b : ObjectT) :
    m.write v a = m.write v b ↔ m.rest a = m.rest b := by
  cases m with
  | ui32 =>
    simp only [Member.write, Member.rest, ObjectT.setUi32, ObjectT.mk.injEq, Prod.mk.injEq]
    exact and_congr_right fun _ => BitVec.append_left_inj _
  | ui64 => simp [Member.write, Member.rest, ObjectT.setUi64]

/-- A call of `f` without arguments comes back with a result. -/
def nativeReturns (lib : NativeLib W) (id : Nat) (f : TvmProgramCfun) : Bool :=
  match f.symbolName, lib.isOk id with
  | some _, some false => true
  | some name, some true => (lib.dlsym name).isSome && (CType.ofNat? f.rtype.toNat).isSome
  | _, _ => false

/-- The member that `op` writes into a popped slot, for the opcodes that write no whole object:
`dup`, `loadc`, `aloadc`, and a `native` call without arguments that returns a value. -/
def keepsOp (env : Env W) (op : OpType) (inst : Opcode) (vm : Vm W) : Option Member :=
  match op with
  | .dup => if 1 ≤ vm.sp then some .ui32 else none
  | .loadc =>
    match vm.program.constTable.referances[inst.operand.ui32.toNat]? with
    | some r =>
      if inst.operand.ui32.toNat < vm.program.constTable.referanceCount ∧ r + 4 ≤ vm.program.constTable.data.length
      then some .ui32 else none
    | none => none
  | .aloadc =>
    if inst.operand.ui32.toNat < vm.program.constTable.referanceCount ∧
      inst.operand.ui32.toNat < vm.program.constTable.referances.length then some .ui64 else none
  | .native =>
    match vm.program.metadata.modules.get? 0 with
    | some m =>
      match m.cfuns.get? inst.operand.ui32.toNat with
      | some f =>
        if f.acount = 0 ∧ inst.operand.ui32.toNat < m.cfunCount ∧ f.rtype ≠ CType.void.code ∧
          nativeReturns env.native inst.operand.ui32.toNat f = true then some .ui32 else none
      | none => none
    | none => none
  | _ => none

def keeps (env : Env W) (inst : Opcode) (vm : Vm W) : Option Member :=
  (OpType.ofNat? inst.type.toNat).bind fun op => keepsOp env op inst vm

/-- The popped slots at `sp` hold the same in the part that `op` keeps. -/
def AgreeOp (env : Env W) (op : OpType) (inst : Opcode) (depth : Nat) (vm : Vm W)
    (stack' : CArray ObjectT tvmStackCapacity) : Prop :=
  ∀ m, keepsOp env op inst vm = some m → ∀ old old', vm.stack.get? vm.sp = some old →
    stack'.get? (depth + vm.sp) = some old' → m.rest old' = m.rest old

/-! ## The opcodes -/

section Opcodes

variable {inst : Opcode} (h : Shifted base dead vm.stack stack' vm.sp) (hroom : Room base vm.sp)

section Control

include h

theorem opCall_matches (env : Env W) (inst : Opcode) :
    Matches base dead (opCall env inst vm) (opCall env inst (vm.over base.length stack')) := by
  refine same_guard_matches h (by decide) fun _ => same_guard_matches h (by decide) fun _ => ?_
  refine .bind_same rfl fun returnStack _ => .bind_same rfl fun ⟨frame, frames⟩ _ => ?_
  exact done_matches ⟨stack', rfl, h⟩

theorem opRet_matches : Matches base dead (opRet vm) (opRet (vm.over base.length stack')) := by
  refine same_guard_matches h (by decide) fun _ => .bind_same rfl fun ip _ => ?_
  exact .bind_same rfl fun ⟨frame, frames⟩ _ => done_matches ⟨stack', rfl, h⟩

end Control

include h hroom

omit h hroom in
theorem referance_ok {i r : Nat} : referance vm i = .ok r ↔ vm.program.constTable.referances[i]? = some r := by
  unfold referance
  cases vm.program.constTable.referances[i]? <;> simp

theorem opLoadc_matches {env : Env W} (hkeep : AgreeOp env .loadc inst base.length vm stack') :
    Matches base dead (opLoadc inst vm) (opLoadc inst (vm.over base.length stack')) := by
  refine overflow_matches h hroom fun _ => same_guard_matches h (by decide) fun hcount => ?_
  refine .bind_same rfl fun r hr => .ite Iff.rfl (fun _ => .error _) fun hlen => ?_
  have hkeeps : keepsOp env .loadc inst vm = some .ui32 := by
    have hdata : r + 4 ≤ vm.program.constTable.data.length := by
      simp only [List.length_take, List.length_drop] at hlen
      omega
    simp [keepsOp, referance_ok.1 hr, hdata, Nat.lt_of_not_le hcount]
  refine pushWith_matches h hroom fun old old' hold hold' => congrArg _ ?_
  have hrest := hkeep _ hkeeps old old' hold hold'
  exact ((Member.write_eq_iff .ui32 (ofLeBytes _) old' old).2 hrest)

theorem opAloadc_matches {env : Env W} (hkeep : AgreeOp env .aloadc inst base.length vm stack') :
    Matches base dead (opAloadc env inst vm) (opAloadc env inst (vm.over base.length stack')) := by
  refine overflow_matches h hroom fun _ => same_guard_matches h (by decide) fun hcount => ?_
  refine .bind_same rfl fun r hr => ?_
  have hkeeps : keepsOp env .aloadc inst vm = some .ui64 := by
    have hlt := (List.getElem?_eq_some_iff.1 (referance_ok.1 hr)).1
    simp [keepsOp, Nat.lt_of_not_le hcount, hlt]
  refine pushWith_matches h hroom fun old old' hold hold' => congrArg _ ?_
  have hrest := hkeep _ hkeeps old old' hold hold'
  exact ((Member.write_eq_iff .ui64 _ old' old).2 hrest)

theorem opLoad_matches (inst : Opcode) :
    Matches base dead (opLoad inst vm) (opLoad inst (vm.over base.length stack')) := by
  refine overflow_matches h hroom fun _ => same_guard_matches h (by decide) fun _ => ?_
  exact .bind_same rfl fun f _ => .bind_same rfl fun o _ => push_matches o h hroom

theorem opGload_matches (inst : Opcode) :
    Matches base dead (opGload inst vm) (opGload inst (vm.over base.length stack')) := by
  refine overflow_matches h hroom fun _ => same_guard_matches h (by decide) fun _ => ?_
  exact .bind_same rfl fun o _ => push_matches o h hroom

theorem opStore_matches (inst : Opcode) :
    Matches base dead (opStore inst vm) (opStore inst (vm.over base.length stack')) := by
  refine le_guard_matches h (by decide) fun h1 => same_guard_matches h (by decide) fun _ => ?_
  refine .bind_same (stackAt_over h hroom (k := 1) (by omega) (by omega)) fun o _ => ?_
  refine .bind_same rfl fun f _ => .bind_same rfl fun localVars _ => ?_
  exact pop_matches (k := 1) (w := { vm with frames := vm.frames.set vm.frame { f with localVars } })
    (by show 1 ≤ vm.sp; omega) (h.pop (Nat.sub_le _ _))

theorem opGstore_matches (inst : Opcode) :
    Matches base dead (opGstore inst vm) (opGstore inst (vm.over base.length stack')) := by
  refine le_guard_matches h (by decide) fun h1 => same_guard_matches h (by decide) fun _ => ?_
  refine .bind_same (stackAt_over h hroom (k := 1) (by omega) (by omega)) fun o _ => ?_
  refine .bind_same rfl fun globalVars _ => ?_
  exact pop_matches (k := 1) (w := { vm with globalVars }) (by show 1 ≤ vm.sp; omega) (h.pop (Nat.sub_le _ _))

theorem opHalloc_matches (env : Env W) :
    Matches base dead (opHalloc env vm) (opHalloc env (vm.over base.length stack')) := by
  refine lt_guard_matches h (by decide) fun h2 => ?_
  refine .bind_same (stackAt_over h hroom (by omega) (by omega)) fun size _ => ?_
  refine .bind_same (stackAt_over h hroom (by omega) (by omega)) fun pointerCount _ => ?_
  refine .bind_same rfl fun ⟨addr, heap⟩ _ => ?_
  show Matches _ _ _ (({ vm with heap }.over base.length stack').stackSet (base.length + vm.sp - 2) _ >>= _)
  rw [show base.length + vm.sp - 2 = base.length + (vm.sp - 2) by omega]
  refine stackSet_matches (hroom.mono (Nat.sub_le _ _)) (pop_matches (k := 1) (by show 1 ≤ vm.sp; omega) ?_)
  exact h.put _ fun j hj => .inl (show j < vm.sp from Nat.lt_of_lt_of_le hj (Nat.sub_le _ _))

theorem opDerefb_matches (env : Env W) (inst : Opcode) :
    Matches base dead (opDerefb env inst vm) (opDerefb env inst (vm.over base.length stack')) := by
  refine le_guard_matches h (by decide) fun h1 => same_guard_matches h (by decide) fun _ => ?_
  refine .ite Iff.rfl (fun _ => loadTop_matches h hroom _ (by omega)) fun _ => ?_
  refine .ite Iff.rfl (fun _ => loadTop_matches h hroom _ (by omega)) fun _ => ?_
  refine .ite Iff.rfl (fun _ => loadTop_matches h hroom _ (by omega)) fun _ => ?_
  exact .ok fun _ => ⟨rfl, stack', rfl, h⟩

theorem heapSet_matches (env : Env W) (width offset : BitVec 32) (h4 : ¬ vm.sp < 4) :
    Matches base dead (heapSet env width offset vm) (heapSet env width offset (vm.over base.length stack')) := by
  refine .bind_same (stackAt_over h hroom (by omega) (by omega)) fun addr _ => .bind_same rfl fun size _ => ?_
  refine same_guard_matches h (by decide) fun _ => .ite Iff.rfl (fun _ => ?_) fun _ => .ok fun _ => ⟨rfl, stack', rfl, h⟩
  refine .bind_same rfl fun value _ => .bind_same (stackAt_over h hroom (by omega) (by omega)) fun o _ => ?_
  refine .bind_same rfl fun heap _ => ?_
  exact pop_matches (k := 4) (w := { vm with heap }) (by show 4 ≤ vm.sp; omega) (h.pop (Nat.sub_le _ _))

theorem opHset_matches (env : Env W) :
    Matches base dead (opHset env vm) (opHset env (vm.over base.length stack')) := by
  refine lt_guard_matches h (by decide) fun h4 => ?_
  refine .bind_same (stackAt_over h hroom (by omega) (by omega)) fun byteSize _ => ?_
  refine .bind_same (stackAt_over h hroom (by omega) (by omega)) fun index _ => ?_
  exact heapSet_matches h hroom env _ _ h4

theorem opHsetof_matches (env : Env W) :
    Matches base dead (opHsetof env vm) (opHsetof env (vm.over base.length stack')) := by
  refine lt_guard_matches h (by decide) fun h4 => ?_
  refine .bind_same (stackAt_over h hroom (by omega) (by omega)) fun typeSize _ => ?_
  refine .bind_same (stackAt_over h hroom (by omega) (by omega)) fun offset _ => ?_
  exact heapSet_matches h hroom env _ _ h4

theorem opPuts_matches (env : Env W) :
    Matches base dead (opPuts env vm) (opPuts env (vm.over base.length stack')) := by
  refine lt_guard_matches h (by decide) fun h1 => ?_
  refine .bind_same (stackAt_over h hroom (k := 1) (by omega) (by omega)) fun o _ => .bind_same rfl fun s _ => ?_
  exact pop_matches (k := 1) (w := { vm with out := vm.out ++ s }) (by show 1 ≤ vm.sp; omega) (h.pop (Nat.sub_le _ _))

theorem opPutc_matches : Matches base dead (opPutc vm) (opPutc (vm.over base.length stack')) := by
  refine lt_guard_matches h (by decide) fun h1 => ?_
  refine .bind_same (stackAt_over h hroom (k := 1) (by omega) (by omega)) fun o _ => ?_
  exact pop_matches (k := 1) (w := { vm with out := vm.out ++ [o.ui8] }) (by show 1 ≤ vm.sp; omega)
    (h.pop (Nat.sub_le _ _))

/-- The loop over the arguments reads live slots. -/
theorem gatherArgs_over : ∀ (todo i slot : Nat), slot + todo ≤ vm.sp →
    gatherArgs (vm.over base.length stack') todo i (base.length + slot) = gatherArgs vm todo i slot
  | 0, _, _, _ => rfl
  | todo + 1, i, slot, hle => by
    unfold gatherArgs
    rw [stackAt_live h hroom (by omega), Nat.add_assoc, gatherArgs_over todo (i + 1) (slot + 1) (by omega)]

end Opcodes

/-- A native call sees its arguments, and nothing else of the stack. -/
theorem tciNativeCall_follows {strict : Prop} (lib : NativeLib W) (w : Vm W) (depth id : Nat)
    (rvalue : Option (BitVec 64)) (avalues : List (BitVec 64)) :
    Follows strict (fun _ => True)
      (fun r r' => r'.1 = r.1.over depth stack' ∧ r'.2 = r.2 ∧ r.1.stack = w.stack ∧ r.1.sp = w.sp)
      (tciNativeCall lib w id rvalue avalues) (tciNativeCall lib (w.over depth stack') id rvalue avalues) := by
  unfold tciNativeCall
  refine .bind_same rfl fun f _ => .bind_same rfl fun name _ => ?_
  cases lib.isOk id with
  | none => exact .error _
  | some ok =>
    cases ok with
    | false => exact .ok fun _ => ⟨rfl, rfl, rfl, rfl⟩
    | true =>
      dsimp only
      cases lib.dlsym name with
      | none => exact .error _
      | some fn =>
        refine .bind_same rfl fun args _ => ?_
        cases rvalue with
        | none => exact .ok fun _ => ⟨rfl, rfl, rfl, rfl⟩
        | some ret => exact .bind_same rfl fun v _ => .ok fun _ => ⟨rfl, rfl, rfl, rfl⟩

/-- A call that returned a value. -/
theorem nativeReturns_of_ok {lib : NativeLib W} {w : Vm W} {id : Nat} {f : TvmProgramCfun} {ret : BitVec 64}
    {avalues : List (BitVec 64)} {r : Vm W × BitVec 64} (hf : w.program.cfun id = .ok f)
    (h : tciNativeCall lib w id (some ret) avalues = .ok r) : nativeReturns lib id f = true := by
  unfold tciNativeCall at h
  rw [Except.bind_of_ok hf] at h
  obtain ⟨name, hname, h⟩ := Except.bind_ok h
  have hsymbol : f.symbolName = some name := by
    revert hname
    cases f.symbolName <;> simp [named]
  unfold nativeReturns
  rw [hsymbol]
  cases hok : lib.isOk id with
  | none => rw [hok] at h; cases h
  | some ok =>
    cases ok with
    | false => rfl
    | true =>
      rw [hok] at h
      dsimp only at h ⊢
      cases hfn : lib.dlsym name with
      | none => rw [hfn] at h; cases h
      | some fn =>
        rw [hfn] at h
        obtain ⟨args, -, h⟩ := Except.bind_ok h
        obtain ⟨v, hv, -⟩ := Except.bind_ok h
        revert hv
        unfold storeRet
        cases CType.ofNat? f.rtype.toNat <;> simp

section Opcodes

variable {inst : Opcode} (h : Shifted base dead vm.stack stack' vm.sp) (hroom : Room base vm.sp)
include h hroom

theorem opNative_matches {env : Env W} (hkeep : AgreeOp env .native inst base.length vm stack') :
    Matches base dead (opNative env inst vm) (opNative env inst (vm.over base.length stack')) := by
  unfold opNative
  refine .bind_same rfl fun f hf => .bind_same rfl fun m hm => ?_
  refine lt_guard_matches h (by decide) fun ha => overflow_matches h hroom fun _ => ?_
  refine same_guard_matches h (by decide) fun hid => ?_
  -- the arguments are at the same distance from the top
  have hsub : (vm.over base.length stack').sp - f.acount = base.length + (vm.sp - f.acount) :=
    Nat.add_sub_assoc (by omega) _
  rw [hsub]
  refine .bind_same (gatherArgs_over h hroom _ _ _ (by omega)) fun vargs _ => ?_
  have hpop := h.pop (Nat.sub_le vm.sp f.acount)
  refine .ite Iff.rfl (fun _ => ?_) fun hvoid => ?_
  · refine .bind (tciNativeCall_follows env.native (vm.setSp (vm.sp - f.acount)) base.length _ none vargs) ?_
    rintro ⟨w, v⟩ ⟨w', v'⟩ - ⟨hw, -, hstack, hsp⟩
    cases hw
    dsimp only at hstack hsp
    exact done_matches (alike_next (by rw [hstack, hsp]; exact hpop))
  · refine .bind (tciNativeCall_follows env.native (vm.setSp (vm.sp - f.acount)) base.length _ (some 0) vargs) ?_
    rintro ⟨w, v⟩ ⟨w', v'⟩ hcall ⟨hw, hv, hstack, hsp⟩
    cases hw
    cases hv
    dsimp only at hstack hsp
    refine pushWith_matches (by rw [hstack, hsp]; exact hpop) ?_ fun old old' hold hold' => congrArg _ ?_
    · rw [hsp]
      exact hroom.mono (Nat.sub_le _ _)
    rw [hstack, hsp] at hold
    rw [hsp] at hold'
    change vm.stack.get? (vm.sp - f.acount) = some old at hold
    change stack'.get? (base.length + (vm.sp - f.acount)) = some old' at hold'
    -- without arguments the result goes to a dead slot
    by_cases hzero : f.acount = 0
    · have hkeeps : keepsOp env .native inst vm = some .ui32 := by
        obtain ⟨m', hm', hcfun⟩ := Except.bind_ok hf
        rw [hm] at hm'
        cases hm'
        have hreturns := nativeReturns_of_ok (w := vm.setSp (vm.sp - f.acount)) hf hcall
        simp [keepsOp, CArray.load_ok.1 hm, CArray.load_ok.1 hcfun, hzero, Nat.lt_of_not_le hid, hvoid, hreturns]
      rw [hzero, Nat.sub_zero] at hold hold'
      exact (Member.write_eq_iff .ui32 v old' old).2 (hkeep _ hkeeps old old' hold hold')
    · -- the result goes where the first argument was, a live slot
      rw [h.slots _ (.inr (by omega)) (CArray.get?_lt hold'), hold] at hold'
      cases hold'
      rfl

/-- A step on the shifted stack: every branch of the switch. -/
theorem tvmExecOp_matches {env : Env W} {op : OpType} (hkeep : AgreeOp env op inst base.length vm stack') :
    Matches base dead (tvmExecOp env op inst vm) (tvmExecOp env op inst (vm.over base.length stack')) := by
  cases op with
  | nop => exact done_matches (alike_next h)
  | push => exact overflow_matches h hroom fun _ => push_matches _ h hroom
  | pop => exact le_guard_matches h (by decide) fun h1 => pop_matches (by omega) (h.pop (Nat.sub_le _ _))
  | add | sub | mult | addf | subf | multf | divf => exact arithOp_matches h hroom _
  | div | mod => exact divOp_matches h hroom _
  | dup =>
    refine lt_guard_matches h (by decide) fun h1 => overflow_matches h hroom fun _ => ?_
    refine .bind_same (stackAt_over h hroom (by omega) (by omega)) fun a _ => ?_
    refine pushWith_matches h hroom fun old old' hold hold' => congrArg _ ?_
    -- only the low half of the slot is written
    have hkeeps : keepsOp env .dup inst vm = some .ui32 := if_pos (by omega)
    have hrest := hkeep _ hkeeps old old' hold hold'
    exact (Member.write_eq_iff .ui32 a.ui64 old' old).2 hrest
  | cln =>
    refine le_guard_matches h (by decide) fun hk => lt_guard_matches h (by decide) fun _ => ?_
    refine overflow_matches h hroom fun _ => .bind_same ?_ fun a _ => push_matches a h hroom
    exact stackAt_over h hroom (k := inst.operand.ui32.toNat + 1) (by omega) (by omega)
  | swap =>
    refine le_guard_matches h (by decide) fun hk => lt_guard_matches h (by decide) fun h2 => ?_
    refine .bind_same (stackAt_over h hroom (by omega) (by omega)) fun temp _ => .bind_same ?_ fun a _ => ?_
    · exact stackAt_over h hroom (k := inst.operand.ui32.toNat + 1) (by omega) (by omega)
    have htop : (vm.over base.length stack').sp - 1 = base.length + (vm.sp - 1) := Nat.add_sub_assoc (by omega) _
    rw [htop]
    refine stackSet_matches (hroom.mono (by omega)) ?_
    show Matches _ _ _ (Vm.stackSet _ (base.length + vm.sp - inst.operand.ui32.toNat - 1) temp >>= _)
    rw [show base.length + vm.sp - inst.operand.ui32.toNat - 1 =
      base.length + (vm.sp - inst.operand.ui32.toNat - 1) by omega]
    refine stackSet_matches (hroom.mono (by show vm.sp - _ - 1 ≤ vm.sp; omega)) ?_
    exact done_matches (alike_next ((h.put a fun j hj => .inl hj).put temp fun j hj => .inl hj))
  | inc | incf | dec | decf | ci2f | ci2u | cf2i | cf2u | cu2i | cu2f | not | bnot =>
    exact unaryOp_matches h hroom _
  | jmp => exact same_guard_matches h (by decide) fun _ => done_matches ⟨stack', rfl, h⟩
  | jz => exact condJump_matches h hroom (· == 0) inst
  | jnz => exact condJump_matches h hroom (· != 0) inst
  | call => exact opCall_matches h env inst
  | ret => exact opRet_matches h
  | gt | gtf | lt | ltf | eq | eqf | ge | gef | le | lef | and | or => exact arithOp_matches h hroom _
  | band | bor | lshft | rshft => exact binaryOp_matches h hroom _
  | loadc => exact opLoadc_matches h hroom hkeep
  | aloadc => exact opAloadc_matches h hroom hkeep
  | load => exact opLoad_matches h hroom inst
  | store => exact opStore_matches h hroom inst
  | gload => exact opGload_matches h hroom inst
  | gstore => exact opGstore_matches h hroom inst
  | halloc => exact opHalloc_matches h hroom env
  | deref => exact le_guard_matches h (by decide) fun h1 => loadTop_matches h hroom _ (by omega)
  | derefb => exact opDerefb_matches h hroom env inst
  | hset => exact opHset_matches h hroom env
  | hsetof => exact opHsetof_matches h hroom env
  | puts => exact opPuts_matches h hroom env
  | putc => exact opPutc_matches h hroom
  | native => exact opNative_matches h hroom hkeep
  | halt => exact done_matches ⟨stack', rfl, h⟩

end Opcodes

/-- The popped slots at `sp` hold the same in the part that the instruction keeps. -/
def Agree (env : Env W) (inst : Opcode) (depth : Nat) (vm : Vm W) (stack' : CArray ObjectT tvmStackCapacity) : Prop :=
  ∀ m, keeps env inst vm = some m → ∀ old old', vm.stack.get? vm.sp = some old →
    stack'.get? (depth + vm.sp) = some old' → m.rest old' = m.rest old

theorem tvmExecInst_matches {env : Env W} {inst : Opcode} (h : Shifted base dead vm.stack stack' vm.sp)
    (hroom : Room base vm.sp) (hkeep : Agree env inst base.length vm stack') :
    Matches base dead (tvmExecInst env inst vm) (tvmExecInst env inst (vm.over base.length stack')) := by
  unfold tvmExecInst
  unfold Agree keeps at hkeep
  cases hop : OpType.ofNat? inst.type.toNat with
  | none => exact .ok fun _ => ⟨rfl, stack', rfl, h⟩
  | some op =>
    rw [hop] at hkeep
    exact tvmExecOp_matches h hroom hkeep

end TileVm
