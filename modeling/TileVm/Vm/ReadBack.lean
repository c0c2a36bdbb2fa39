/-
What `hset` writes, read back by `deref`, `push`, `add` and `derefb`. The store computes the byte
address in 64 bits; the program adds the offset to the low half of the value's address only, so it
reads another address when that sum carries.
-/
import TileVm.Vm.HeapSet

namespace TileVm

variable {W : Type} {env : Env W} {vm : Vm W} {a : Addr} {b : GcBlock}

/-! ## Instructions in sequence -/

/-- The instructions one after the other, up to the first exception. -/
def execAll (env : Env W) : List Opcode → Vm W → Except Fault (Ret W)
  | [], vm => done vm
  | inst :: insts, vm => do
    let (e, vm) ← tvmExecInst env inst vm
    if e = .ok then execAll env insts vm else raise e vm

theorem execAll_cons {inst : Opcode} {insts : List Opcode} {vm' : Vm W}
    (h : tvmExecInst env inst vm = .ok (.ok, vm')) : execAll env (inst :: insts) vm = execAll env insts vm' := by
  rw [execAll, Except.bind_of_ok h]
  rfl

/-- The instructions touch the stack and `ip` only. -/
structure SameMemory (vm vm' : Vm W) : Prop where
  heap : vm'.heap = vm.heap
  program : vm'.program = vm.program

/-- The object at `sp - 1` is replaced. -/
theorem loadTop_ok {f : Addr → Except Fault (BitVec 64)} {v : BitVec 64} (h1 : 1 ≤ vm.sp) (hsp : vm.sp ≤ tvmStackCapacity)
    (hf : f (vm.slot (vm.sp - 1)).ui64 = .ok v) : ∃ vm', loadTop f vm = .ok (.ok, vm') ∧ SameMemory vm vm' ∧
      vm'.sp = vm.sp ∧ vm'.slot (vm.sp - 1) = (vm.slot (vm.sp - 1)).setUi64 v := by
  have hlt : vm.sp - 1 < tvmStackCapacity := by omega
  unfold loadTop
  rw [Except.bind_of_ok (stackAt_slot vm hlt), Except.bind_of_ok hf]
  unfold Vm.stackSet CArray.store
  rw [if_pos hlt]
  exact ⟨_, rfl, ⟨rfl, rfl⟩, rfl, slot_put rfl hlt⟩

theorem loadTop_error {f : Addr → Except Fault (BitVec 64)} {e : Fault} (hsp : vm.sp ≤ tvmStackCapacity) (h1 : 1 ≤ vm.sp)
    (hf : f (vm.slot (vm.sp - 1)).ui64 = .error e) : loadTop f vm = .error e := by
  unfold loadTop
  rw [Except.bind_of_ok (stackAt_slot vm (by omega)), Except.bind_of_error hf]

theorem push_ok (env : Env W) (vm : Vm W) (operand : ObjectT) (hsp : vm.sp < tvmStackCapacity) :
    ∃ vm', tvmExecInst env ⟨OpType.push.code, operand⟩ vm = .ok (.ok, vm') ∧ SameMemory vm vm' ∧
      vm'.sp = vm.sp + 1 ∧ vm'.slot vm.sp = operand ∧ ∀ i < vm.sp, vm'.slot i = vm.slot i := by
  have hold : vm.stack.get? vm.sp = some (vm.slot vm.sp) := CArray.load_ok.1 (stackAt_slot vm hsp)
  have hpush := pushWith_ok (g := fun _ => operand) hold
  rw [tvmExecInst_code]
  unfold tvmExecOp
  dsimp only
  rw [if_neg (Nat.not_le.2 hsp), hpush]
  refine ⟨_, rfl, ⟨rfl, rfl⟩, rfl, slot_put rfl hsp, fun i hi => ?_⟩
  exact congrArg (·.getD ObjectT.zero) (CArray.get?_put_of_ne vm.stack _ (Nat.ne_of_lt hi))

theorem add_ok (env : Env W) (vm : Vm W) (operand : ObjectT) (h2 : 2 ≤ vm.sp) (hsp : vm.sp < tvmStackCapacity) :
    ∃ vm', tvmExecInst env ⟨OpType.add.code, operand⟩ vm = .ok (.ok, vm') ∧ SameMemory vm vm' ∧
      vm'.sp = vm.sp - 1 ∧ vm'.slot (vm.sp - 2) =
        (vm.slot (vm.sp - 2)).setUi32 ((vm.slot (vm.sp - 2)).ui32 + (vm.slot (vm.sp - 1)).ui32) := by
  have hlt : vm.sp - 2 < tvmStackCapacity := by omega
  rw [tvmExecInst_code]
  unfold tvmExecOp arithOp applyTwo word2
  dsimp only
  rw [if_neg (by omega), if_neg (Nat.not_le.2 hsp), Except.bind_of_ok (stackAt_slot vm (by omega)),
    Except.bind_of_ok (stackAt_slot vm hlt), Except.bind_of_ok rfl]
  unfold Vm.stackSet CArray.store
  rw [if_pos hlt]
  exact ⟨_, rfl, ⟨rfl, rfl⟩, rfl, slot_put rfl hlt⟩

/-! ## Reading back -/

/-- A value, loaded with a width of 1 or 4 bytes, as `derefb` leaves it. -/
def extended (w : Nat) (v : BitVec 64) : BitVec 64 :=
  if w = 1 then (v.setWidth 8).signExtend 64 else (v.setWidth 32).signExtend 64

/-- The load of `derefb` with a width of 1 or 4. -/
def TgcHeap.loadExtended (h : TgcHeap) (const : Region) (w : Nat) (x : Addr) : Except Fault (BitVec 64) :=
  (h.loadWord const w x).map (extended w)

/-- `deref`, `push off`, `add` and `derefb w`. -/
def readBack (off w : ObjectT) : List Opcode :=
  [⟨OpType.deref.code, .zero⟩, ⟨OpType.push.code, off⟩, ⟨OpType.add.code, .zero⟩, ⟨OpType.derefb.code, w⟩]

/-- The address that the program computes: the offset is added to the low half. -/
def addLow (p : BitVec 64) (off : BitVec 32) : BitVec 64 := p.extractLsb' 32 32 ++ (p.setWidth 32 + off)

theorem constRegion_of_program {vm' : Vm W} (env : Env W) (h : vm'.program = vm.program) :
    vm'.constRegion env = vm.constRegion env := by
  unfold Vm.constRegion
  rw [h]

/-- The sequence loads `w` bytes from that address. -/
theorem readBack_eq {p : BitVec 64} (off : ObjectT) {w : ObjectT} (h1 : 1 ≤ vm.sp) (hsp : vm.sp + 1 < tvmStackCapacity)
    (hderef : vm.heap.loadWord (vm.constRegion env) 8 (vm.slot (vm.sp - 1)).ui64 = .ok p)
    (hw : w.ui32.toNat = 1 ∨ w.ui32.toNat = 4) :
    (∀ v, vm.heap.loadWord (vm.constRegion env) w.ui32.toNat (addLow p off.ui32) = .ok v →
      ∃ vm', execAll env (readBack off w) vm = .ok (.ok, vm') ∧ vm'.sp = vm.sp ∧
        (vm'.slot (vm.sp - 1)).ui64 = extended w.ui32.toNat v) ∧
    (∀ f, vm.heap.loadWord (vm.constRegion env) w.ui32.toNat (addLow p off.ui32) = .error f →
      execAll env (readBack off w) vm = .error f) := by
  -- the states behind `deref`, `push` and `add`
  obtain ⟨s1, hs1, hm1, hsp1, htop1⟩ := loadTop_ok (f := vm.heap.loadWord (vm.constRegion env) 8) h1 (by omega) hderef
  have hexec1 : tvmExecInst env ⟨OpType.deref.code, .zero⟩ vm = .ok (.ok, s1) := by
    rw [tvmExecInst_code]
    exact (if_neg (by omega)).trans hs1
  obtain ⟨s2, hexec2, hm2, hsp2, htop2, hbelow2⟩ := push_ok env s1 off (by omega)
  obtain ⟨s3, hexec3, hm3, hsp3, htop3⟩ := add_ok env s2 .zero (by omega) (by omega)
  have haddr : (s3.slot (s3.sp - 1)).ui64 = addLow p off.ui32 := by
    rw [show s3.sp - 1 = s2.sp - 2 by omega, htop3, show s2.sp - 1 = s1.sp by omega, htop2,
      hbelow2 (s2.sp - 2) (by omega), show s2.sp - 2 = vm.sp - 1 by omega, htop1]
    rfl
  have hrun : execAll env (readBack off w) vm = execAll env [⟨OpType.derefb.code, w⟩] s3 :=
    (execAll_cons hexec1).trans ((execAll_cons hexec2).trans (execAll_cons hexec3))
  have hload : s3.heap.loadWord (s3.constRegion env) = vm.heap.loadWord (vm.constRegion env) := by
    rw [constRegion_of_program env (hm3.program.trans (hm2.program.trans hm1.program)), hm3.heap, hm2.heap, hm1.heap]
  -- what `derefb` does in the last of them
  have hexec4 : tvmExecInst env ⟨OpType.derefb.code, w⟩ s3 =
      loadTop (s3.heap.loadExtended (s3.constRegion env) w.ui32.toNat) s3 := by
    have hrange : ¬ (w.ui32.toInt < 1 ∨ 8 < w.ui32.toNat) := by
      rw [BitVec.toInt_eq_toNat_of_lt (by omega)]
      omega
    rw [tvmExecInst_code]
    show opDerefb env _ s3 = _
    unfold opDerefb TgcHeap.loadExtended extended
    dsimp only
    rw [if_neg (by omega), if_neg hrange]
    rcases hw with hw | hw
    · rw [if_pos hw, hw]
      rfl
    · rw [if_neg (by omega), if_pos hw, hw]
      rfl
  constructor
  · intro v hv
    have hvalue : s3.heap.loadExtended (s3.constRegion env) w.ui32.toNat (s3.slot (s3.sp - 1)).ui64 = .ok (extended w.ui32.toNat v) := by
      unfold TgcHeap.loadExtended
      rw [haddr, hload, hv]
      rfl
    obtain ⟨s4, hs4, -, hsp4, htop4⟩ := loadTop_ok (show 1 ≤ s3.sp by omega) (by omega) hvalue
    refine ⟨s4, hrun.trans ((execAll_cons (hexec4.trans hs4)).trans rfl), by omega, ?_⟩
    rw [show vm.sp - 1 = s3.sp - 1 by omega, htop4]
    rfl
  · intro f hf
    have hfault : s3.heap.loadExtended (s3.constRegion env) w.ui32.toNat (s3.slot (s3.sp - 1)).ui64 = .error f := by
      unfold TgcHeap.loadExtended
      rw [haddr, hload, hf]
      rfl
    have hload_fault := loadTop_error (show s3.sp ≤ tvmStackCapacity by omega) (show 1 ≤ s3.sp by omega) hfault
    rw [hrun, execAll, hexec4, Except.bind_of_error hload_fault]

theorem addLow_toNat (p : BitVec 64) (off : BitVec 32) :
    (addLow p off).toNat = p.toNat / 2 ^ 32 * 2 ^ 32 + (p.toNat + off.toNat) % 2 ^ 32 := by
  have hhigh : (p.extractLsb' 32 32).toNat = p.toNat / 2 ^ 32 := by
    rw [BitVec.extractLsb'_toNat, Nat.shiftRight_eq_div_pow]
    exact Nat.mod_eq_of_lt (by have := p.isLt; omega)
  have hlow : (p.setWidth 32 + off).toNat = (p.toNat + off.toNat) % 2 ^ 32 := by
    rw [BitVec.toNat_add, BitVec.toNat_setWidth, Nat.mod_add_mod]
  unfold addLow
  rw [BitVec.toNat_append, hhigh, hlow, ← Nat.shiftLeft_add_eq_or_of_lt (Nat.mod_lt _ (by decide)), Nat.shiftLeft_eq]

/-- Without a carry it is the address of the store. -/
theorem addLow_of_lt {p : BitVec 64} {off : BitVec 32} (h : p.toNat % 2 ^ 32 + off.toNat < 2 ^ 32) :
    addLow p off = p + BitVec.ofNat 64 off.toNat := by
  apply BitVec.eq_of_toNat_eq
  have hp := p.isLt
  rw [addLow_toNat, BitVec.toNat_add, BitVec.toNat_ofNat]
  omega

/-- With a carry it is `2^32` lower: no byte from there on is one of the store. -/
theorem addLow_outside (p : BitVec 64) (off : BitVec 32) {w k : Nat} (h : 2 ^ 32 ≤ p.toNat % 2 ^ 32 + off.toNat)
    (hw : w ≤ 4) (hk : k < w) :
    ¬ (off.toNat ≤ (addLow p off + BitVec.ofNat 64 k - p).toNat ∧
      (addLow p off + BitVec.ofNat 64 k - p).toNat < off.toNat + w) := by
  have hp := p.isLt
  have hoff := off.isLt
  have haddr := addLow_toNat p off
  rw [BitVec.toNat_sub, BitVec.toNat_add, BitVec.toNat_ofNat]
  omega

/-! ## The round trip -/

/-- The low bits of an extended value are its own. -/
theorem setWidth_signExtend {m n : Nat} (hm : m ≤ n) (hn : n ≤ 64) (v : BitVec n) :
    (v.signExtend 64).setWidth m = v.setWidth m := by
  apply BitVec.eq_of_getLsbD_eq
  intro i hi
  rw [BitVec.getLsbD_setWidth, BitVec.getLsbD_setWidth, BitVec.getLsbD_signExtend, if_pos (by omega)]
  simp [show i < 64 by omega]

theorem extended_byte (w : Nat) (v : BitVec 64) : (extended w v).setWidth 8 = v.setWidth 8 := by
  unfold extended
  split
  · rw [setWidth_signExtend (Nat.le_refl 8) (by decide), BitVec.setWidth_eq]
  · rw [setWidth_signExtend (by decide) (by decide)]
    exact BitVec.setWidth_setWidth_of_le v (by decide)

theorem extended_word (v : BitVec 64) : (extended 4 v).setWidth 32 = v.setWidth 32 := by
  unfold extended
  rw [if_neg (by decide), setWidth_signExtend (Nat.le_refl 32) (by decide), BitVec.setWidth_eq]

/-- `vm` with the value `v` beneath the operands of a store. -/
def Vm.withValue (vm : Vm W) (v : ObjectT) : Vm W := { vm with stack := vm.stack.put (vm.sp - 4) v }

/-- Some time after `vm1`: the block is alive, the `w` bytes at offset `off` of its value are as they were, and its
address is on top of the stack. -/
structure Later (env : Env W) (vm1 vm2 : Vm W) (a : Addr) (b : GcBlock) (off w : Nat) : Prop where
  block : LiveBlock vm2.heap a b
  memory : MemoryApart vm2.heap (vm2.constRegion env)
  bytes : ∀ k < w, vm2.heap.readByte (vm2.constRegion env) (b.value + BitVec.ofNat 64 (off + k)) =
    vm1.heap.readByte (vm1.constRegion env) (b.value + BitVec.ofNat 64 (off + k))
  address : 1 ≤ vm2.sp ∧ (vm2.slot (vm2.sp - 1)).ui64 = a
  room : vm2.sp + 1 < tvmStackCapacity

/-- The sequence leaves, in place of the address, `v` or a value with the low byte of `v`. -/
def ReadsBack (env : Env W) (off w v : ObjectT) (vm : Vm W) : Prop :=
  ∃ vm', execAll env (readBack off w) vm = .ok (.ok, vm') ∧ vm'.sp = vm.sp ∧
    (w.ui32.toNat = 4 → (vm'.slot (vm.sp - 1)).ui32 = v.ui32) ∧
    (w.ui32.toNat = 1 → (vm'.slot (vm.sp - 1)).ui8 = v.ui8)

/-- Whatever is stored at index `i` with width `w`, it is read back whenever it is read. -/
def RoundTrip (env : Env W) (vm : Vm W) (a : Addr) (b : GcBlock) (i w : Nat) : Prop :=
  ∀ v, ∃ vm1, tvmExecInst env ⟨OpType.hset.code, .zero⟩ (vm.withValue v) = .ok (.ok, vm1) ∧
    ∀ vm2 off width, off.ui32.toNat = i * w → width.ui32.toNat = w → Later env vm1 vm2 a b (i * w) w →
      ReadsBack env off width v vm2

section RoundTrip

variable {i w : Nat} (h : StoreOperands env vm a b) (hi : (vm.slot (vm.sp - 2)).ui32.toNat = i)
  (hw : (vm.slot (vm.sp - 1)).ui32.toNat = w) (hwidth : w = 1 ∨ w = 4) (hend : i * w + w ≤ b.size.toNat)

theorem withValue_slot (vm : Vm W) (v : ObjectT) {j : Nat} (hj : j ≠ vm.sp - 4) : (vm.withValue v).slot j = vm.slot j :=
  congrArg (·.getD ObjectT.zero) (CArray.get?_put_of_ne vm.stack v hj)

include h

theorem withValue_operands (v : ObjectT) : StoreOperands env (vm.withValue v) a b where
  four := h.four
  sp := h.sp
  address := by
    have := h.four
    rw [show (vm.withValue v).sp = vm.sp from rfl, withValue_slot vm v (by omega)]
    exact h.address
  block := h.block
  memory := h.memory

include hi hw hwidth hend

/-- The store succeeds and writes the bytes of the value. -/
theorem hset_withValue (v : ObjectT) : ∃ vm1, tvmExecInst env ⟨OpType.hset.code, .zero⟩ (vm.withValue v) = .ok (.ok, vm1) ∧
    vm1.heap = vm.heap.writeValue b.value (i * w) (leBytes w v.ui64) ∧ vm1.program = vm.program := by
  have hfour := h.four
  have hsp := h.sp
  have hsize := h.block.size
  have hops := withValue_operands h v
  have hindex : (vm.withValue v).slot ((vm.withValue v).sp - 2) = vm.slot (vm.sp - 2) :=
    withValue_slot vm v (show vm.sp - 2 ≠ vm.sp - 4 by omega)
  have hbytes : (vm.withValue v).slot ((vm.withValue v).sp - 1) = vm.slot (vm.sp - 1) :=
    withValue_slot vm v (show vm.sp - 1 ≠ vm.sp - 4 by omega)
  have hvalue : (vm.withValue v).slot ((vm.withValue v).sp - 4) = v := slot_put rfl (show vm.sp - 4 < _ by omega)
  have hoff : ((vm.slot (vm.sp - 2)).ui32 * (vm.slot (vm.sp - 1)).ui32).toNat = i * w := by
    rw [BitVec.toNat_mul, hi, hw]
    exact Nat.mod_eq_of_lt (by omega)
  have hiswidth : IsWidth w := hwidth.imp id .inl
  rw [tvmExecInst_code, hset_eq hops, heapSet_eq hops, hindex, hbytes, hoff, hw, if_neg (by omega), if_pos hiswidth,
    if_pos (by omega)]
  refine ⟨_, rfl, ?_, rfl⟩
  show (vm.withValue v).heap.writeValue _ _ (leBytes w ((vm.withValue v).slot ((vm.withValue v).sp - 4)).ui64) = _
  rw [hvalue]
  rfl

/-- Without a carry. -/
theorem roundTrip_of_lt (hcarry : b.value.toNat % 2 ^ 32 + i * w < 2 ^ 32) : RoundTrip env vm a b i w := by
  intro v
  obtain ⟨vm1, hexec, hheap, hprog⟩ := hset_withValue h hi hw hwidth hend v
  refine ⟨vm1, hexec, fun vm2 off width hoff hw2 hlater => ?_⟩
  have hderef : vm2.heap.loadWord (vm2.constRegion env) 8 (vm2.slot (vm2.sp - 1)).ui64 = .ok b.value := by
    rw [hlater.address.2]
    exact hlater.block.loadValue hlater.memory
  have hconst := constRegion_of_program env hprog
  have hload : vm2.heap.loadWord (vm2.constRegion env) w (b.value + BitVec.ofNat 64 (i * w)) =
      .ok (ofLeBytes (leBytes w v.ui64)) := by
    have := loadWord_of vm2.heap (vm2.constRegion env) (b.value + BitVec.ofNat 64 (i * w)) (l := leBytes w v.ui64)
      fun k hk => by
        rw [BitVec.add_assoc, ← BitVec.ofNat_add, hlater.bytes k (by simpa using hk), hheap, hconst]
        exact readByte_written h.block h.memory (by simpa using hend) hk
    rwa [length_leBytes] at this
  obtain ⟨hok, -⟩ := readBack_eq off hlater.address.1 hlater.room hderef (show width.ui32.toNat = 1 ∨ _ by rwa [hw2])
  rw [addLow_of_lt (by rwa [hoff]), hoff, hw2] at hok
  obtain ⟨vm3, hrun, hsp, htop⟩ := hok _ hload
  refine ⟨vm3, hrun, hsp, fun h4 => ?_, fun h1 => ?_⟩
  · obtain rfl : w = 4 := hw2.symm.trans h4
    show (vm3.slot _).ui64.setWidth 32 = _
    rw [htop, extended_word, ofLeBytes_leBytes (by decide)]
    simp [ObjectT.ui32]
  · obtain rfl : w = 1 := hw2.symm.trans h1
    show (vm3.slot _).ui64.setWidth 8 = _
    rw [htop, extended_byte, ofLeBytes_leBytes (by decide)]
    simp [ObjectT.ui8]

omit hi hw hwidth in
/-- The state right after the store, with the address pushed. -/
theorem later_at_once {v : ObjectT} {vm1 : Vm W} (hheap : vm1.heap = vm.heap.writeValue b.value (i * w) (leBytes w v.ui64))
    (hprog : vm1.program = vm.program) :
    Later env vm1 { vm1 with stack := vm1.stack.put 0 ⟨StackObjType.dataAddress.code, a⟩, sp := 1 } a b (i * w) w := by
  have hfits : ∀ r ∈ vm.heap.values, r.base = b.value → i * w + (leBytes w v.ui64).length ≤ r.bytes.length := by
    rw [length_leBytes]
    exact h.block.fits h.memory hend
  refine ⟨?_, ?_, fun _ _ => rfl, ⟨Nat.le_refl 1, ?_⟩, show 2 < tvmStackCapacity by decide⟩
  · show LiveBlock vm1.heap a b
    rw [hheap]
    exact h.block.writeValue hfits
  · show MemoryApart vm1.heap ⟨env.constBase, vm1.program.constTable.data⟩
    rw [hheap, hprog]
    exact h.memory.writeValue hfits
  · have htop : Vm.slot { vm1 with stack := vm1.stack.put 0 ⟨StackObjType.dataAddress.code, a⟩, sp := 1 } 0 = _ :=
      slot_put rfl (show 0 < tvmStackCapacity by decide)
    exact congrArg ObjectT.ui64 htop

/-- With a carry the byte that is read does not depend on the value that was stored. -/
theorem not_roundTrip_of_le (hcarry : 2 ^ 32 ≤ b.value.toNat % 2 ^ 32 + i * w) : ¬ RoundTrip env vm a b i w := by
  intro hall
  have hsize := h.block.size
  obtain ⟨off, hoff⟩ : ∃ off : ObjectT, off.ui32.toNat = i * w := by
    refine ⟨⟨0, BitVec.ofNat 64 (i * w)⟩, ?_⟩
    unfold ObjectT.ui32
    rw [BitVec.toNat_setWidth, BitVec.toNat_ofNat]
    omega
  -- the program reads outside of what was written, the same for every value
  have hread : ∀ v : ObjectT, ∃ u, vm.heap.loadWord (vm.constRegion env) w (addLow b.value off.ui32) = .ok u ∧
      u.setWidth 8 = v.ui8 := by
    intro v
    obtain ⟨vm1, hexec, hlater⟩ := hall v
    obtain ⟨vm1', hexec', hheap, hprog⟩ := hset_withValue h hi hw hwidth hend v
    obtain rfl : vm1 = vm1' := congrArg Prod.snd (Except.ok.inj (hexec.symm.trans hexec'))
    have hnow := later_at_once h hend hheap hprog
    obtain ⟨vm3, hrun, -, hword, hbyte⟩ := hlater _ off (vm.slot (vm.sp - 1)) hoff hw hnow
    have hderef := hnow.block.loadValue hnow.memory
    rw [← hnow.address.2] at hderef
    obtain ⟨hok, herror⟩ := readBack_eq off hnow.address.1 hnow.room hderef
      (show (vm.slot (vm.sp - 1)).ui32.toNat = 1 ∨ _ by rwa [hw])
    have hload : vm1.heap.loadWord (vm1.constRegion env) w (addLow b.value off.ui32) =
        vm.heap.loadWord (vm.constRegion env) w (addLow b.value off.ui32) := by
      rw [constRegion_of_program env hprog, hheap]
      refine loadWord_congr fun k hk => readByte_outside h.block h.memory (by simpa using hend) ?_
      have houtside := addLow_outside b.value off.ui32 (by omega) (show w ≤ 4 by omega) hk
      rw [length_leBytes]
      rwa [hoff] at houtside
    rw [← hload]
    cases hu : vm1.heap.loadWord (vm1.constRegion env) w (addLow b.value off.ui32) with
    | error e =>
      have hfault := herror e (by rw [hw]; exact hu)
      rw [hrun] at hfault
      cases hfault
    | ok u =>
      obtain ⟨vm3', hrun', -, htop⟩ := hok u (by rw [hw]; exact hu)
      obtain rfl : vm3 = vm3' := congrArg Prod.snd (Except.ok.inj (hrun.symm.trans hrun'))
      refine ⟨u, rfl, ?_⟩
      rw [hw] at htop hword hbyte
      rw [← extended_byte w u, ← htop]
      rcases hwidth with h1 | h4
      · exact hbyte h1
      · have := congrArg (BitVec.setWidth 8) (hword h4)
        unfold ObjectT.ui32 at this
        rwa [BitVec.setWidth_setWidth_of_le _ (by decide), BitVec.setWidth_setWidth_of_le _ (by decide)] at this
  -- but it would have to return both 0 and 1
  obtain ⟨u, hu, hzero⟩ := hread ⟨0, 0⟩
  obtain ⟨u', hu', hone⟩ := hread ⟨0, 1⟩
  rw [hu] at hu'
  cases hu'
  rw [hzero] at hone
  exact absurd hone (by decide)

end RoundTrip

/-- For every live block, wherever its value lies, every width of 1 or 4 and every index within the block: whatever `hset`
stores is read back by `deref`, `push`, `add` and `derefb`, if and only if adding the offset to the low half of the
address of the value does not carry. -/
theorem read_back_iff (env : Env W) (vm : Vm W) (a : Addr) (b : GcBlock) (i w : Nat) (h : StoreOperands env vm a b)
    (hi : (vm.slot (vm.sp - 2)).ui32.toNat = i) (hw : (vm.slot (vm.sp - 1)).ui32.toNat = w) (hwidth : w = 1 ∨ w = 4)
    (hend : (i + 1) * w ≤ b.size.toNat) :
    RoundTrip env vm a b i w ↔ b.value.toNat % 2 ^ 32 + i * w < 2 ^ 32 := by
  rw [Nat.succ_mul] at hend
  constructor
  · intro hround
    by_contra hcarry
    exact not_roundTrip_of_le h hi hw hwidth hend (Nat.not_lt.1 hcarry) hround
  · exact roundTrip_of_lt h hi hw hwidth hend

/-- The word at index 4 of a block of 32 bytes whose value starts sixteen bytes before a multiple of `2^32`. -/
theorem read_back_fails : ∃ vm : Vm Unit, tvmInit (.bare [64]) .zero () = .ok vm ∧
    StoreOperands (.bare [64]) (vm.storing 0xFFFFFFF0 32 7 4 4) 4096 ⟨0xFFFFFFF0, 0, 32, 0, 0⟩ ∧
    ¬ RoundTrip (.bare [64]) (vm.storing 0xFFFFFFF0 32 7 4 4) 4096 ⟨0xFFFFFFF0, 0, 32, 0, 0⟩ 4 4 := by
  have hops {vm : Vm Unit} (hinit : tvmInit (.bare [64]) .zero () = .ok vm) :
      StoreOperands (.bare [64]) (vm.storing 0xFFFFFFF0 32 7 4 4) 4096 ⟨0xFFFFFFF0, 0, 32, 0, 0⟩ :=
    storing_operands (by decide) (by decide) (by decide) hinit 7 4 4
  refine ⟨_, rfl, hops rfl, ?_⟩
  exact not_roundTrip_of_le (hops rfl) rfl rfl (.inr rfl) (by decide) (by decide)

/-- The word at index 1 of a block of eight bytes at 8192. -/
theorem read_back_low : ∃ vm : Vm Unit, tvmInit (.bare [64]) .zero () = .ok vm ∧
    RoundTrip (.bare [64]) (vm.storing 8192 8 7 1 4) 4096 ⟨8192, 0, 8, 0, 0⟩ 1 4 := by
  refine ⟨_, rfl, ?_⟩
  have hops := storing_operands (show 4136 ≤ (8192 : Addr).toNat by decide)
    (show (8192 : Addr).toNat + 8 ≤ 2 ^ 64 by decide) (show 8 < 2 ^ 32 by decide) rfl 7 1 4
  exact (read_back_iff (.bare [64]) _ 4096 ⟨8192, 0, 8, 0, 0⟩ 1 4 hops rfl rfl (.inr rfl) (by decide)).2 (by decide)

end TileVm
