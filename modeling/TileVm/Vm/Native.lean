/-
The call of a native function: what it is given, what it leaves of the stack, and the object that
carries its result. The result is copied through the 32-bit member of the slot it lands in, so the
upper half of a 64-bit result is the one that the slot had.
-/
import Mathlib.Data.BitVec
import TileVm.Vm.NativeAccess
import TileVm.Vm.Step

namespace TileVm

variable {W : Type}

/-! ## Widths -/

/-- A payload, read at the width of a C type. -/
def CType.readAt (t : CType) (v : BitVec 64) : BitVec 64 := (v.setWidth (8 * t.size)).setWidth 64

theorem CType.size_cases (t : CType) : t.size ≤ 4 ∨ t.size = 8 := by
  cases t <;> simp [CType.size]

theorem readAt_eight {t : CType} (h : t.size = 8) (v : BitVec 64) : t.readAt v = v := by
  unfold CType.readAt
  rw [h]
  simp

/-- A narrow read sees the low half only. -/
theorem readAt_setUi32 {t : CType} (h : t.size ≤ 4) (o : ObjectT) (v : BitVec 64) :
    t.readAt (o.setUi32 (v.setWidth 32)).ui64 = t.readAt v := by
  have hlow : (o.setUi32 (v.setWidth 32)).ui64.setWidth 32 = v.setWidth 32 := ObjectT.ui32_setUi32 o _
  have hnarrow (u : BitVec 64) : u.setWidth (8 * t.size) = (u.setWidth 32).setWidth (8 * t.size) :=
    (BitVec.setWidth_setWidth_of_le u (by omega)).symm
  unfold CType.readAt
  rw [hnarrow, hlow, ← hnarrow]

/-- The whole payload is the value when the upper halves agree. -/
theorem setUi32_eq_iff (o : ObjectT) (v : BitVec 64) :
    (o.setUi32 (v.setWidth 32)).ui64 = v ↔ v.extractLsb' 32 32 = o.ui64.extractLsb' 32 32 := by
  have hsplit : v = v.extractLsb' 32 32 ++ v.setWidth 32 := by
    apply BitVec.eq_of_getLsbD_eq
    intro i hi
    simp only [BitVec.getLsbD_append, BitVec.getLsbD_setWidth, BitVec.getLsbD_extractLsb']
    split
    · simp [*]
    · rw [show 32 + (i - 32) = i by omega]
      simp [show i - 32 < 32 by omega]
  constructor
  · intro h
    have hpayload : o.ui64.extractLsb' 32 32 ++ v.setWidth 32 = v.extractLsb' 32 32 ++ v.setWidth 32 := h.trans hsplit
    exact ((BitVec.append_left_inj _).1 hpayload).symm
  · intro h
    show o.ui64.extractLsb' 32 32 ++ v.setWidth 32 = v
    rw [← h]
    exact hsplit.symm

/-! ## A call -/

/-- `vm->stack[i]`; a zero object outside of the array. -/
def Vm.slot (vm : Vm W) (i : Nat) : ObjectT := (vm.stack.get? i).getD ObjectT.zero

theorem stackAt_slot (vm : Vm W) {i : Nat} (h : i < tvmStackCapacity) : vm.stackAt i = .ok (vm.slot i) := by
  have hget := CArray.get?_of_lt vm.stack h
  unfold Vm.slot
  rw [hget]
  exact CArray.load_ok.2 hget

theorem slot_put {w : Vm W} {stack : CArray ObjectT tvmStackCapacity} {i : Nat} {o : ObjectT} (hw : w.stack = stack.put i o)
    (hi : i < tvmStackCapacity) : w.slot i = o := by
  unfold Vm.slot
  rw [hw, CArray.get?_put_self _ _ hi]
  rfl

/-- The function `id` of the metadata is `f`, and libffi can call it at `fn`: it was prepared, its symbol was found,
every type code is one, and what libffi leaves of a result reads as the result at the return type's width. -/
structure Callable (lib : NativeLib W) (p : TvmProgram) (id : Nat) (f : TvmProgramCfun) (fn : Addr) (rtype : CType) :
    Prop where
  declared : id < (module0 p).cfunCount
  entry : (module0 p).cfuns.get? id = some f
  prepared : lib.isOk id = some true
  found : ∃ name, f.symbolName = some name ∧ lib.dlsym name = some fn
  returns : CType.ofNat? f.rtype.toNat = some rtype
  types : f.acount ≤ f.atypes.length ∧ ∀ t ∈ f.atypes, ∃ ct, CType.ofNat? t.toNat = some ct
  stores : rtype ≠ .void → ∀ old v, rtype.readAt (lib.ffiStore rtype old v) = rtype.readAt v

/-- The `n` topmost objects, in the order in which they were pushed. -/
def topObjects (vm : Vm W) (n : Nat) : List ObjectT := (List.range n).map fun i => vm.slot (vm.sp - n + i)

/-- The arguments of a call of `f`: the payload of the `i`-th pushed of the top objects, read at the width of
`atypes[i]`. -/
def nativeArgs (f : TvmProgramCfun) (vm : Vm W) : List (Byte × BitVec 64) :=
  List.zipWith (fun t o => (t, ((CType.ofNat? t.toNat).getD .void).readAt o.ui64)) f.atypes (topObjects vm f.acount)

/-- What the library does when `f`, at `fn`, is called from `vm`. -/
def nativeResult (lib : NativeLib W) (f : TvmProgramCfun) (fn : Addr) (vm : Vm W) : NativeResult W :=
  lib.ffiCall fn f.rtype (nativeArgs f vm) vm.world vm.heap.values

/-- The call of `f` from `vm` takes its arguments off the stack, leaves what is below them, and puts the returned
value on top, at the width of the return type. -/
structure NativeCalled (lib : NativeLib W) (f : TvmProgramCfun) (fn : Addr) (rtype : CType) (vm vm' : Vm W) : Prop where
  world : vm'.world = (nativeResult lib f fn vm).world
  values : vm'.heap.values = (nativeResult lib f fn vm).values
  below : ∀ i < vm.sp - f.acount, vm'.stack.get? i = vm.stack.get? i
  void : rtype = .void → vm'.sp = vm.sp - f.acount
  value : rtype ≠ .void → vm'.sp = vm.sp - f.acount + 1 ∧
    rtype.readAt (vm'.slot (vm.sp - f.acount)).ui64 = rtype.readAt (nativeResult lib f fn vm).ret

variable {lib : NativeLib W} {vm : Vm W} {id : Nat} {f : TvmProgramCfun} {fn : Addr} {rtype : CType}

theorem gatherArgs_ok (vm : Vm W) : ∀ todo i slot : Nat, i + todo ≤ 64 → slot + todo ≤ tvmStackCapacity →
    gatherArgs vm todo i slot = .ok ((List.range todo).map fun k => (vm.slot (slot + k)).ui64)
  | 0, _, _, _, _ => rfl
  | todo + 1, i, slot, hi, hslot => by
    unfold gatherArgs
    rw [if_neg (by omega), Except.bind_of_ok (stackAt_slot vm (by omega)),
      Except.bind_of_ok (gatherArgs_ok vm todo (i + 1) (slot + 1) (by omega) (by omega)), List.range_succ_eq_map,
      List.map_cons, List.map_map]
    refine congrArg (fun l => Except.ok ((vm.slot slot).ui64 :: l)) (List.map_congr_left fun k _ => ?_)
    show (vm.slot (slot + 1 + k)).ui64 = (vm.slot (slot + (k + 1))).ui64
    rw [Nat.add_right_comm]
    rfl

theorem readArgs_ok : ∀ (ts : List Byte) (os : List ObjectT), os.length ≤ ts.length →
    (∀ t ∈ ts, ∃ ct, CType.ofNat? t.toNat = some ct) → readArgs ts (os.map (·.ui64)) =
      .ok (List.zipWith (fun t o => (t, ((CType.ofNat? t.toNat).getD .void).readAt o.ui64)) ts os)
  | ts, [], _, _ => by simp [readArgs]
  | [], _ :: _, hlen, _ => absurd hlen (by simp)
  | t :: ts, o :: os, hlen, hts => by
    obtain ⟨ct, hct⟩ := hts t (List.mem_cons_self ..)
    have harg : readArg t o.ui64 = .ok (t, ct.readAt o.ui64) := by
      unfold readArg
      rw [hct]
      rfl
    have hrest := readArgs_ok ts os (Nat.le_of_succ_le_succ hlen) fun u hu => hts u (List.mem_cons_of_mem _ hu)
    rw [List.map_cons, readArgs, Except.bind_of_ok harg, Except.bind_of_ok hrest, List.zipWith_cons_cons, hct]
    rfl

theorem storeRet_ok {store : CType → BitVec 64 → BitVec 64 → BitVec 64} (h : CType.ofNat? f.rtype.toNat = some rtype)
    (ret v : BitVec 64) : storeRet store f.rtype ret v = .ok (store rtype ret v) := by
  unfold storeRet
  rw [h]

/-- The call itself, on a stack from which the arguments have been taken. -/
theorem tciNativeCall_ok (h : Callable lib vm.program id f fn rtype) (rvalue : Option (BitVec 64)) (sp : Nat)
    (hzero : ∀ ret, rvalue = some ret → ret = 0) : ∃ out,
    tciNativeCall lib (vm.setSp sp) id rvalue ((topObjects vm f.acount).map (·.ui64)) =
      .ok ({ vm.setSp sp with
              world := (nativeResult lib f fn vm).world
              heap := { vm.heap with values := (nativeResult lib f fn vm).values }, out },
        if rvalue.isSome then lib.ffiStore rtype 0 (nativeResult lib f fn vm).ret else 0) := by
  obtain ⟨name, hname, hfn⟩ := h.found
  have hcfun : (vm.setSp sp).program.cfun id = .ok f := cfun_ok.2 h.entry
  have hlen : (topObjects vm f.acount).length ≤ f.atypes.length := by
    unfold topObjects
    rw [List.length_map, List.length_range]
    exact h.types.1
  have hargs := readArgs_ok f.atypes (topObjects vm f.acount) hlen h.types.2
  unfold tciNativeCall
  rw [Except.bind_of_ok hcfun, hname, Except.bind_of_ok (show named (some name) = .ok name from rfl), h.prepared]
  dsimp only
  rw [hfn]
  dsimp only
  rw [Except.bind_of_ok hargs]
  cases rvalue with
  | none => exact ⟨_, rfl⟩
  | some ret =>
    obtain rfl := hzero ret rfl
    dsimp only
    rw [Except.bind_of_ok (storeRet_ok h.returns _ _)]
    exact ⟨_, rfl⟩

theorem rtype_void (h : CType.ofNat? f.rtype.toNat = some rtype) : f.rtype = CType.void.code ↔ rtype = .void := by
  constructor
  · intro hvoid
    rw [hvoid] at h
    exact (Option.some.inj h).symm
  · rintro rfl
    have hlt : f.rtype.toNat < CType.all.length := (List.getElem?_eq_some_iff.1 h).1
    have hcodes : ∀ n < CType.all.length, CType.ofNat? n = some .void → n = 11 := by decide
    exact BitVec.eq_of_toNat_eq (hcodes _ hlt h)

/-- Behind the guards the instruction is the call, and the copy of the result into the slot of the first argument. -/
theorem opNative_called {env : Env W} {inst : Opcode} (h : Callable env.native vm.program inst.operand.ui32.toNat f fn rtype)
    (hcount : f.acount ≤ 64) (hargs : f.acount ≤ vm.sp) (hsp : vm.sp < tvmStackCapacity) :
    ∃ out, let r := nativeResult env.native f fn vm
      let called : Vm W := { vm with
        sp := vm.sp - f.acount, world := r.world, heap := { vm.heap with values := r.values }, out }
      tvmExecOp env .native inst vm = if rtype = .void then done called.next else
        pushWith (fun old => .ok (old.setUi32 ((env.native.ffiStore rtype 0 r.ret).setWidth 32))) called := by
  have hcfun : vm.program.cfun inst.operand.ui32.toNat = .ok f := cfun_ok.2 h.entry
  have hgather := gatherArgs_ok vm f.acount 0 (vm.sp - f.acount) (by omega) (by omega)
  have hobjects : (List.range f.acount).map (fun k => (vm.slot (vm.sp - f.acount + k)).ui64) =
      (topObjects vm f.acount).map (·.ui64) := by
    unfold topObjects
    rw [List.map_map]
    rfl
  rw [hobjects] at hgather
  -- without a result nothing is pushed, and `tci_native_call` gets no place for one
  by_cases hvoid : rtype = .void
  · obtain ⟨out, hcall⟩ := tciNativeCall_ok h none (vm.sp - f.acount) (by simp)
    refine ⟨out, ?_⟩
    show opNative env inst vm = _
    unfold opNative
    rw [Except.bind_of_ok hcfun, Except.bind_of_ok (load_module0 _), if_neg (by omega), if_neg (by omega),
      if_neg (Nat.not_le.2 h.declared), Except.bind_of_ok hgather]
    dsimp only
    rw [if_pos ((rtype_void h.returns).2 hvoid), if_pos hvoid, Except.bind_of_ok hcall]
    rfl
  · obtain ⟨out, hcall⟩ := tciNativeCall_ok h (some 0) (vm.sp - f.acount) fun ret hret => (Option.some.inj hret).symm
    refine ⟨out, ?_⟩
    show opNative env inst vm = _
    unfold opNative
    rw [Except.bind_of_ok hcfun, Except.bind_of_ok (load_module0 _), if_neg (by omega), if_neg (by omega),
      if_neg (Nat.not_le.2 h.declared), Except.bind_of_ok hgather]
    dsimp only
    rw [if_neg fun hcode => hvoid ((rtype_void h.returns).1 hcode), if_neg hvoid, Except.bind_of_ok hcall]
    rfl

/-! ## The result -/

/-- The object that carries the result reads as the returned value, unless the value has 64 bits and the slot had
another upper half. -/
theorem readAt_result_iff {t : CType} {stored v : BitVec 64} (hstored : t.readAt stored = t.readAt v) (o : ObjectT) :
    t.readAt (o.setUi32 (stored.setWidth 32)).ui64 = t.readAt v ↔
      t.size ≠ 8 ∨ v.extractLsb' 32 32 = o.ui64.extractLsb' 32 32 := by
  rcases t.size_cases with hnarrow | hwide
  · exact iff_of_true ((readAt_setUi32 hnarrow o stored).trans hstored) (.inl (by omega))
  · rw [readAt_eight hwide, readAt_eight hwide] at hstored
    rw [hstored, readAt_eight hwide, readAt_eight hwide, setUi32_eq_iff]
    constructor
    · exact .inr
    · rintro (h | h)
      · exact absurd hwide h
      · exact h

/-- For every declared function with at most 64 arguments, every signature and every stack that holds the arguments:
the call takes them in order and at their widths, leaves what is below, and puts the returned value on top, if and only
if the return type has fewer than 64 bits or the upper half of the value is the one that the slot of the first argument
had before. -/
theorem native_called_iff (env : Env W) (inst : Opcode) (vm : Vm W) (f : TvmProgramCfun) (fn : Addr) (rtype : CType)
    (h : Callable env.native vm.program inst.operand.ui32.toNat f fn rtype) (hcount : f.acount ≤ 64)
    (hargs : f.acount ≤ vm.sp) (hsp : vm.sp < tvmStackCapacity) :
    (∃ vm', tvmExecOp env .native inst vm = .ok (.ok, vm') ∧ NativeCalled env.native f fn rtype vm vm') ↔
      (rtype.size ≠ 8 ∨ (nativeResult env.native f fn vm).ret.extractLsb' 32 32 =
        (vm.slot (vm.sp - f.acount)).ui64.extractLsb' 32 32) := by
  obtain ⟨out, hexec⟩ := opNative_called h hcount hargs hsp
  dsimp only at hexec
  by_cases hvoid : rtype = .void
  · subst hvoid
    rw [if_pos rfl] at hexec
    refine iff_of_true ⟨_, hexec, rfl, rfl, fun _ _ => rfl, fun _ => rfl, fun hne => absurd rfl hne⟩ (.inl (by decide))
  · rw [if_neg hvoid] at hexec
    have hslot : vm.sp - f.acount < tvmStackCapacity := by omega
    -- the result is written over what the slot holds
    have hold : vm.stack.get? (vm.sp - f.acount) = some (vm.slot (vm.sp - f.acount)) :=
      CArray.load_ok.1 (stackAt_slot vm hslot)
    rw [pushWith_ok hold] at hexec
    -- the value is right if and only if it is read back
    rw [← readAt_result_iff (h.stores hvoid 0 _)]
    constructor
    · rintro ⟨vm', hrun, hcalled⟩
      rw [hexec] at hrun
      cases hrun
      have hvalue := (hcalled.value hvoid).2
      rwa [slot_put rfl hslot] at hvalue
    · intro hread
      refine ⟨_, hexec, rfl, rfl, fun i hi => ?_, fun hv => absurd hv hvoid, fun _ => ⟨rfl, ?_⟩⟩
      · exact CArray.get?_put_of_ne vm.stack _ (Nat.ne_of_lt hi)
      · rw [slot_put rfl hslot]
        exact hread

theorem readAt_widened (t : CType) (h : t ≠ .void) (old v : BitVec 64) : t.readAt (t.widened old v) = t.readAt v := by
  have hsigned {n : Nat} (hn : n ≤ 64) : (((v.setWidth n).signExtend 64).setWidth n).setWidth 64 = (v.setWidth n).setWidth 64 := by
    congr 1
    apply BitVec.eq_of_getLsbD_eq
    intro i hi
    rw [BitVec.getLsbD_setWidth, BitVec.getLsbD_signExtend, if_pos hi, decide_eq_true hi, decide_eq_true (by omega : i < 64),
      Bool.true_and, Bool.true_and]
  have hzero {n : Nat} (hn : n ≤ 64) : (((v.setWidth n).setWidth 64).setWidth n).setWidth 64 = (v.setWidth n).setWidth 64 := by
    rw [BitVec.setWidth_setWidth_of_le _ hn, BitVec.setWidth_eq]
  cases t with
  | uint8 | uint16 | uint32 => exact hzero (by decide)
  | int8 | int16 | int32 => exact hsigned (by decide)
  | float32 => exact congrArg (fun x : BitVec 32 => x.setWidth 64) (BitVec.setWidth_append_eq_right ..)
  | uint64 | int64 | float64 | ptr => rfl
  | void => exact absurd rfl h

/-! ## A host with one function -/

/-- A program that declares one function without arguments, and returns what it may. -/
def declares (t : CType) : TvmProgram :=
  let f : TvmProgramCfun := ⟨t.code, [], 0, some (cstr "now")⟩
  { TvmProgram.zero with
    metadata := { modules := TvmProgram.zero.metadata.modules.put 0 ⟨.fill f, none, 1⟩, moduleCount := 1 } }

/-- A host whose library has that function; it returns `v`. -/
def Env.returning (v : BitVec 64) : Env Unit :=
  { Env.bare [64] with
    native := { isOk _ := some true, dlsym _ := some 4096, ffiCall _ _ _ w vs := ⟨w, vs, [], v⟩, ffiStore := CType.widened } }

/-- `now()` returns `2^32` as `u64`: the object on top holds 0. -/
theorem native_result_truncated : ∃ vm vm' : Vm Unit, tvmInit (.returning (2 ^ 32)) (declares .uint64) () = .ok vm ∧
    tvmExecOp (.returning (2 ^ 32)) .native ⟨OpType.native.code, .zero⟩ vm = .ok (.ok, vm') ∧
    (nativeResult (Env.returning (2 ^ 32)).native ⟨CType.uint64.code, [], 0, some (cstr "now")⟩ 4096 vm).ret = 2 ^ 32 ∧
    (vm'.slot 0).ui64 = 0 ∧
    ¬ NativeCalled (Env.returning (2 ^ 32)).native ⟨CType.uint64.code, [], 0, some (cstr "now")⟩ 4096 .uint64 vm vm' := by
  refine ⟨_, _, rfl, rfl, rfl, rfl, fun h => ?_⟩
  exact absurd (h.value (by decide)).2 (by decide)

/-- `sum(u8, u64)`, which returns an `i8`. -/
def sumFun : TvmProgramCfun := ⟨CType.int8.code, [CType.uint8.code, CType.uint64.code], 2, some (cstr "sum")⟩

/-- The bare host with a library of that function. -/
def Env.summing : Env Unit :=
  { Env.bare [64] with
    native :=
      { isOk _ := some true, dlsym _ := some 4096
        ffiCall _ _ args w vs := ⟨w, vs, [], (args.map (·.2)).sum⟩, ffiStore := CType.widened } }

/-- The program that declares it. -/
def declaresSum : TvmProgram :=
  { TvmProgram.zero with
    metadata := { modules := TvmProgram.zero.metadata.modules.put 0 ⟨.fill sumFun, none, 1⟩, moduleCount := 1 } }

theorem callable_sum : Callable Env.summing.native declaresSum 0 sumFun 4096 .int8 where
  declared := Nat.one_pos
  entry := rfl
  prepared := rfl
  found := ⟨_, rfl, rfl⟩
  returns := rfl
  types := ⟨Nat.le_refl 2, List.forall_mem_cons.2 ⟨⟨_, rfl⟩, List.forall_mem_cons.2 ⟨⟨_, rfl⟩, List.forall_mem_nil _⟩⟩⟩
  stores h old v := readAt_widened .int8 h old v

/-- The stack `5`, `511`, `2^40`. -/
def sumVm (vm : Vm Unit) : Vm Unit :=
  { vm with stack := vm.stack.putAll 0 [⟨0, 5⟩, ⟨0, 511⟩, ⟨0, 2 ^ 40⟩], sp := 3 }

/-- `511` is passed as the byte `255`, and the sum comes back as the byte `-1`. -/
theorem native_called_sum : ∃ vm vm' : Vm Unit, tvmInit .summing declaresSum () = .ok vm ∧
    nativeArgs sumFun (sumVm vm) = [(CType.uint8.code, 255), (CType.uint64.code, 2 ^ 40)] ∧
    tvmExecOp .summing .native ⟨OpType.native.code, .zero⟩ (sumVm vm) = .ok (.ok, vm') ∧
    NativeCalled Env.summing.native sumFun 4096 .int8 (sumVm vm) vm' ∧
    vm'.sp = 2 ∧ vm'.stack.get? 0 = some ⟨0, 5⟩ ∧ CType.int8.readAt (vm'.slot 1).ui64 = 255 := by
  have hinit : ∃ vm : Vm Unit, tvmInit .summing declaresSum () = .ok vm ∧ vm.program = declaresSum ∧
      (sumVm vm).stack.get? 0 = some ⟨0, 5⟩ ∧
      nativeArgs sumFun (sumVm vm) = [(CType.uint8.code, 255), (CType.uint64.code, 2 ^ 40)] := ⟨_, rfl, rfl, rfl, by decide⟩
  obtain ⟨vm, hinit, hprogram, hbelow, hargs⟩ := hinit
  obtain ⟨vm', hexec, hcalled⟩ := (native_called_iff .summing ⟨OpType.native.code, .zero⟩ (sumVm vm) sumFun 4096 .int8
    (hprogram ▸ callable_sum) (by decide) (show 2 ≤ 3 by decide) (show 3 < tvmStackCapacity by decide)).2 (.inl (by decide))
  obtain ⟨hsp, hvalue⟩ := hcalled.value (by decide)
  refine ⟨vm, vm', hinit, hargs, hexec, hcalled, hsp, (hcalled.below 0 Nat.one_pos).trans hbelow, hvalue.trans ?_⟩
  unfold nativeResult
  rw [hargs]
  show CType.int8.readAt [255, 2 ^ 40].sum = 255
  decide

end TileVm
