/-
Stores through block addresses. `OP_HSET` and `OP_HSETOF` compare the first byte of the store with
the size of the block and nothing else, after a product in 32 bits; and the branch for i386 adds the
byte offset to a pointer to words.
-/
import TileVm.Vm.Memory
import TileVm.Vm.Native

namespace TileVm

variable {W : Type} {env : Env W} {inst : Opcode} {vm : Vm W} {a : Addr} {b : GcBlock}

/-! ## A store into a live block -/

/-- A store of one of the supported widths. -/
def IsWidth (w : Nat) : Prop := w = 1 ∨ w = 4 ∨ w = 8

instance (w : Nat) : Decidable (IsWidth w) := inferInstanceAs (Decidable (_ ∨ _))

/-- The operands of a store: the block's address in the third slot from the top. -/
structure StoreOperands (env : Env W) (vm : Vm W) (a : Addr) (b : GcBlock) : Prop where
  four : 4 ≤ vm.sp
  sp : vm.sp ≤ tvmStackCapacity
  address : (vm.slot (vm.sp - 3)).ui64 = a
  block : LiveBlock vm.heap a b
  memory : MemoryApart vm.heap (vm.constRegion env)

/-- The state after a store of `w` bytes at offset `off` of the block's value. -/
def Vm.stored (vm : Vm W) (b : GcBlock) (off w : Nat) : Vm W :=
  ({ vm with heap := vm.heap.writeValue b.value off (leBytes w (vm.slot (vm.sp - 4)).ui64) }.setSp (vm.sp - 4)).next

/-- What the two instructions share: one comparison, of the first byte. -/
theorem heapSet_eq (h : StoreOperands env vm a b) (width offset : BitVec 32) : heapSet env width offset vm =
    if b.size.toNat ≤ offset.toNat then raise .invalidArrayIndex vm
    else if IsWidth width.toNat then
      if offset.toNat + width.toNat ≤ b.size.toNat then done (vm.stored b offset.toNat width.toNat)
      else .error .badAddress
    else raise .invalidPrimitiveSize vm := by
  have hsp := h.sp
  have hfour := h.four
  have haddr : vm.stackAt (vm.sp - 3) = .ok (vm.slot (vm.sp - 3)) := stackAt_slot vm (by omega)
  have hvalue : vm.stackAt (vm.sp - 4) = .ok (vm.slot (vm.sp - 4)) := stackAt_slot vm (by omega)
  have hwidth : (width.toNat = 4 ∨ width.toNat = 1 ∨ width.toNat = 8) ↔ IsWidth width.toNat := by
    unfold IsWidth
    omega
  unfold heapSet
  rw [Except.bind_of_ok haddr, h.address, Except.bind_of_ok (h.block.loadSize h.memory)]
  simp only [hwidth]
  split
  · rfl
  · split
    · rw [Except.bind_of_ok (h.block.loadValue h.memory), Except.bind_of_ok hvalue, storeValue_eq h.memory h.block,
        length_leBytes]
      split
      · rfl
      · rfl
    · rfl

/-- A store of an unsupported width is refused, wherever it would go. -/
theorem heapSet_refuses (h : StoreOperands env vm a b) {width : BitVec 32} (offset : BitVec 32) (hwidth : ¬ IsWidth width.toNat) :
    ∃ e, e ≠ .ok ∧ heapSet env width offset vm = .ok (e, vm) := by
  rw [heapSet_eq h]
  by_cases hle : b.size.toNat ≤ offset.toNat
  · rw [if_pos hle]
    exact ⟨.invalidArrayIndex, by decide, rfl⟩
  · rw [if_neg hle, if_neg hwidth]
    exact ⟨.invalidPrimitiveSize, by decide, rfl⟩

theorem hset_eq (h : StoreOperands env vm a b) : tvmExecOp env .hset inst vm =
    heapSet env (vm.slot (vm.sp - 1)).ui32 ((vm.slot (vm.sp - 2)).ui32 * (vm.slot (vm.sp - 1)).ui32) vm := by
  have hsp := h.sp
  have hfour := h.four
  show opHset env vm = _
  unfold opHset
  rw [if_neg (by omega), Except.bind_of_ok (stackAt_slot vm (by omega)), Except.bind_of_ok (stackAt_slot vm (by omega))]

theorem hsetof_eq (h : StoreOperands env vm a b) : tvmExecOp env .hsetof inst vm =
    heapSet env (vm.slot (vm.sp - 1)).ui32 (vm.slot (vm.sp - 2)).ui32 vm := by
  have hsp := h.sp
  have hfour := h.four
  show opHsetof env vm = _
  unfold opHsetof
  rw [if_neg (by omega), Except.bind_of_ok (stackAt_slot vm (by omega)), Except.bind_of_ok (stackAt_slot vm (by omega))]

/-! ## Bounds -/

/-- The store of `w` bytes at offset `off`: exactly these bytes of the value are written when the width is supported and
they lie in the block; every other store is refused and changes nothing. -/
structure StoreChecked (env : Env W) (op : OpType) (inst : Opcode) (vm : Vm W) (b : GcBlock) (off w : Nat) : Prop where
  inside : IsWidth w → off + w ≤ b.size.toNat → ∃ vm', tvmExecOp env op inst vm = .ok (.ok, vm') ∧
    vm'.heap = vm.heap.writeValue b.value off (leBytes w (vm.slot (vm.sp - 4)).ui64)
  refused : ¬ (IsWidth w ∧ off + w ≤ b.size.toNat) → ∃ e, e ≠ .ok ∧ tvmExecOp env op inst vm = .ok (e, vm)

/-- The comparison of the first byte is enough: the width is refused, or the first byte lies behind the block, or the
store ends within it. The offset compared may differ from the one meant, which is in the block only if they agree. -/
theorem storeChecked_iff {op : OpType} {width offset : BitVec 32} {off : Nat} (h : StoreOperands env vm a b)
    (hop : tvmExecOp env op inst vm = heapSet env width offset vm)
    (hagree : off + width.toNat ≤ b.size.toNat → offset.toNat = off) :
    StoreChecked env op inst vm b off width.toNat ↔
      (¬ IsWidth width.toNat ∨ b.size.toNat ≤ offset.toNat ∨ off + width.toNat ≤ b.size.toNat) := by
  have heq := hop.trans (heapSet_eq h width offset)
  constructor
  · intro hchecked
    by_contra hno
    obtain ⟨hwidth, hstart, hend⟩ : IsWidth width.toNat ∧ offset.toNat < b.size.toNat ∧
        b.size.toNat < off + width.toNat := by
      simpa only [not_or, Decidable.not_not, Nat.not_le] using hno
    -- the check passes, and the store is made
    obtain ⟨e, he, hrefused⟩ := hchecked.refused fun hboth => by omega
    rw [heq, if_neg (by omega), if_pos hwidth] at hrefused
    split at hrefused
    · exact he (congrArg Prod.fst (Except.ok.inj hrefused)).symm
    · cases hrefused
  · intro hcond
    constructor
    · intro hwidth hend
      have hsame := hagree hend
      have hpos : 0 < width.toNat := by rcases hwidth with hw | hw | hw <;> omega
      rw [heq, if_neg (by omega), if_pos hwidth, if_pos (by omega), hsame]
      exact ⟨_, rfl, rfl⟩
    · intro hbad
      rw [hop]
      rcases hcond with hwidth | hstart | hend
      · exact heapSet_refuses h offset hwidth
      · rw [heapSet_eq h, if_pos hstart]
        exact ⟨.invalidArrayIndex, by decide, rfl⟩
      · exact heapSet_refuses h offset fun hwidth => hbad ⟨hwidth, hend⟩

/-- For every live block, value, index or offset, and width. `hset` writes what it is to write, and refuses what it is
to refuse, if and only if the width is refused anyway, the 32-bit product lies behind the block, or the store ends
within it; and `hsetof` likewise, with the offset as it is. -/
theorem hset_checked_iff (env : Env W) (inst : Opcode) (vm : Vm W) (a : Addr) (b : GcBlock)
    (h : StoreOperands env vm a b) :
    (StoreChecked env .hset inst vm b ((vm.slot (vm.sp - 2)).ui32.toNat * (vm.slot (vm.sp - 1)).ui32.toNat)
        (vm.slot (vm.sp - 1)).ui32.toNat ↔
      ¬ IsWidth (vm.slot (vm.sp - 1)).ui32.toNat ∨
        b.size.toNat ≤ (vm.slot (vm.sp - 2)).ui32.toNat * (vm.slot (vm.sp - 1)).ui32.toNat % 2 ^ 32 ∨
        (vm.slot (vm.sp - 2)).ui32.toNat * (vm.slot (vm.sp - 1)).ui32.toNat + (vm.slot (vm.sp - 1)).ui32.toNat ≤
          b.size.toNat) ∧
    (StoreChecked env .hsetof inst vm b (vm.slot (vm.sp - 2)).ui32.toNat (vm.slot (vm.sp - 1)).ui32.toNat ↔
      ¬ IsWidth (vm.slot (vm.sp - 1)).ui32.toNat ∨ b.size.toNat ≤ (vm.slot (vm.sp - 2)).ui32.toNat ∨
        (vm.slot (vm.sp - 2)).ui32.toNat + (vm.slot (vm.sp - 1)).ui32.toNat ≤ b.size.toNat) := by
  have hsize := h.block.size
  constructor
  · rw [← BitVec.toNat_mul]
    refine storeChecked_iff h (hset_eq h) fun hend => ?_
    rw [BitVec.toNat_mul]
    exact Nat.mod_eq_of_lt (by omega)
  · exact storeChecked_iff h (hsetof_eq h) fun _ => rfl

/-! ## A machine with one block -/

/-- A heap with one block of `n` bytes at `value`. -/
def oneBlock (value : Addr) (n : Nat) : TgcHeap where
  blocks := [some ⟨value, 0, BitVec.ofNat 64 n, 0, 0⟩]
  base := 4096
  cap := 4
  blockCount := 1
  values := [⟨value, List.replicate n 0⟩]

/-- A value, the address of the block, an index and a width on the stack. -/
def Vm.storing (vm : Vm W) (value : Addr) (n : Nat) (v index width : BitVec 32) : Vm W :=
  let number (v : BitVec 32) : ObjectT := ⟨StackObjType.number.code, v.setWidth 64⟩
  { vm with
    stack := (((vm.stack.put 0 (number v)).put 1 ⟨StackObjType.dataAddress.code, 4096⟩).put 2 (number index)).put 3
      (number width)
    sp := 4
    heap := oneBlock value n }

section OneBlock

variable {value : Addr} {n : Nat} (hlow : 4136 ≤ value.toNat) (hhigh : value.toNat + n ≤ 2 ^ 64) (hn : n < 2 ^ 32)

include hn in
theorem oneBlock_live : LiveBlock (oneBlock value n) 4096 ⟨value, 0, BitVec.ofNat 64 n, 0, 0⟩ where
  descriptor := ⟨0, rfl, rfl⟩
  value := ⟨_, List.mem_singleton.2 rfl, rfl, by simp; omega⟩
  size := by simp; omega

include hlow hhigh in
theorem oneBlock_apart (base : Addr) : MemoryApart (oneBlock value n) ⟨base, []⟩ where
  values := List.pairwise_singleton ..
  constant r _ a := .inr rfl
  descriptors r hr k hk := by
    rcases List.mem_cons.1 hr with rfl | hr
    · rfl
    · obtain rfl := List.mem_singleton.1 hr
      have hk : k < 40 := hk
      have hoff : (4096 + BitVec.ofNat 64 k - value : Addr).toNat = 2 ^ 64 - value.toNat + 4096 + k := by
        bv_omega
      show (List.replicate n (0 : Byte))[(4096 + BitVec.ofNat 64 k - value : Addr).toNat]? = none
      rw [hoff, List.getElem?_eq_none_iff, List.length_replicate]
      omega
  room := show 40 ≤ 2 ^ 64 by decide

include hlow hhigh hn in
theorem storing_operands {vm : Vm Unit} (hinit : tvmInit (.bare [64]) .zero () = .ok vm) (v index width : BitVec 32) :
    StoreOperands (.bare [64]) (vm.storing value n v index width) 4096 ⟨value, 0, BitVec.ofNat 64 n, 0, 0⟩ where
  four := Nat.le_refl 4
  sp := show 4 ≤ 1024 by decide
  address := by cases hinit; rfl
  block := oneBlock_live hn
  memory := by cases hinit; exact oneBlock_apart hlow hhigh 0

end OneBlock

/-- `hset` of a word at index 1 of a block of five bytes. -/
theorem hset_overruns : ∃ vm : Vm Unit, tvmInit (.bare [64]) .zero () = .ok vm ∧
    StoreOperands (.bare [64]) (vm.storing 8192 5 7 1 4) 4096 ⟨8192, 0, 5, 0, 0⟩ ∧
    ¬ StoreChecked (.bare [64]) .hset ⟨OpType.hset.code, .zero⟩ (vm.storing 8192 5 7 1 4) ⟨8192, 0, 5, 0, 0⟩ 4 4 := by
  refine ⟨_, rfl, storing_operands (by decide) (by decide) (by decide) rfl 7 1 4, fun h => ?_⟩
  obtain ⟨e, -, hexec⟩ := h.refused (by decide)
  have hfault : false = true := congrArg Except.isOk hexec
  cases hfault

/-- The last word of a block of eight bytes. -/
theorem hset_checked_last : ∃ vm : Vm Unit, tvmInit (.bare [64]) .zero () = .ok vm ∧
    StoreChecked (.bare [64]) .hset ⟨OpType.hset.code, .zero⟩ (vm.storing 8192 8 7 1 4) ⟨8192, 0, 8, 0, 0⟩ 4 4 := by
  refine ⟨_, rfl, ?_⟩
  refine (hset_checked_iff (.bare [64]) ⟨OpType.hset.code, .zero⟩ _ 4096 ⟨8192, 0, 8, 0, 0⟩
    (storing_operands (by decide) (by decide) (by decide) rfl 7 1 4)).1.2 ?_
  exact .inr (.inr (by decide))

/-! ## Two builds -/

/-- The architectures for which the source has a branch of its own. -/
inductive Build where
  | x86_64
  | i386
deriving DecidableEq, Repr

/-- The cases of the switch: how many bytes from `addr->value` on the store begins, and how many it writes. On i386 the
offset is added to a `uint32_t*` when words are stored. -/
def Build.storeCase : Build → Nat → Nat → Option (Nat × Nat)
  | .x86_64, offset, width =>
    if width = 4 then some (offset, 4) else if width = 1 then some (offset, 1)
    else if width = 8 then some (offset, 8) else none
  | .i386, offset, width =>
    if width = 4 then some (4 * offset, 4) else if width = 1 then some (offset, 1) else none

/-- What a store of `v` does to a block of the given size: an exception, or bytes at an offset of its value. -/
def Build.heapSet (build : Build) (size : BitVec 64) (width offset : BitVec 32) (v : BitVec 64) :
    Except TvmException (Nat × List Byte) :=
  if size.toNat ≤ offset.toNat then .error .invalidArrayIndex
  else
    match build.storeCase offset.toNat width.toNat with
    | some (off, n) => .ok (off, leBytes n v)
    | none => .error .invalidPrimitiveSize

/-- `OP_HSET`. -/
def Build.hset (build : Build) (size : BitVec 64) (width index : BitVec 32) (v : BitVec 64) :
    Except TvmException (Nat × List Byte) :=
  build.heapSet size width (index * width) v

/-- `OP_HSETOF`. -/
def Build.hsetof (build : Build) (size : BitVec 64) (width offset : BitVec 32) (v : BitVec 64) :
    Except TvmException (Nat × List Byte) :=
  build.heapSet size width offset v

/-- On x86-64 the machine does this to the block. -/
theorem heapSet_build (h : StoreOperands env vm a b) (width offset : BitVec 32) : heapSet env width offset vm =
    match Build.x86_64.heapSet b.size width offset (vm.slot (vm.sp - 4)).ui64 with
    | .error e => raise e vm
    | .ok (off, bs) =>
      if off + bs.length ≤ b.size.toNat then
        done ({ vm with heap := vm.heap.writeValue b.value off bs }.setSp (vm.sp - 4)).next
      else .error .badAddress := by
  rw [heapSet_eq h]
  unfold Build.heapSet Build.storeCase IsWidth
  split
  · rfl
  · by_cases h4 : width.toNat = 4
    · simp [h4, Vm.stored]
    · by_cases h1 : width.toNat = 1
      · simp [h1, Vm.stored]
      · by_cases h8 : width.toNat = 8
        · simp [h8, Vm.stored]
        · simp [h4, h1, h8]

/-- The two builds accept the same stores and write the same bytes, at byte `off` of the value. -/
structure BuildsAgree (x y : Except TvmException (Nat × List Byte)) (off : Nat) : Prop where
  same : x = y
  place : ∀ r, x = .ok r → r.1 = off

theorem heapSet_agree_iff {size : BitVec 64} {width offset : BitVec 32} {v : BitVec 64} {off : Nat}
    (hw : width.toNat = 1 ∨ width.toNat = 4) (hoff : width.toNat = 1 → offset.toNat = off) :
    BuildsAgree (Build.x86_64.heapSet size width offset v) (Build.i386.heapSet size width offset v) off ↔
      width.toNat = 1 ∨ size.toNat ≤ offset.toNat ∨ (offset.toNat = 0 ∧ off = 0) := by
  unfold Build.heapSet Build.storeCase
  by_cases hguard : size.toNat ≤ offset.toNat
  · rw [if_pos hguard, if_pos hguard]
    exact iff_of_true ⟨rfl, nofun⟩ (.inr (.inl hguard))
  rw [if_neg hguard, if_neg hguard]
  rcases hw with h1 | h4
  · rw [h1]
    refine iff_of_true ⟨rfl, ?_⟩ (.inl rfl)
    rintro r ⟨⟩
    exact hoff h1
  · rw [h4]
    constructor
    · rintro ⟨hsame, hplace⟩
      have hscaled : offset.toNat = 4 * offset.toNat := congrArg Prod.fst (Except.ok.inj hsame)
      have hstart : offset.toNat = off := hplace _ rfl
      exact .inr (.inr (by omega))
    · rintro (h | h | ⟨hzero, rfl⟩)
      · cases h
      · exact absurd h hguard
      · constructor
        · simp [hzero]
        · rintro r ⟨⟩
          exact hzero

/-- For every block, value, index or offset, and width of 1 or 4: the two builds accept the same stores and write the
same bytes at the same place of the value, if and only if the width is 1, the store is refused as one behind the block,
or the index (for `hsetof`, the offset) is 0. -/
theorem builds_agree_iff (size : BitVec 64) (width index offset : BitVec 32) (v : BitVec 64)
    (hw : width.toNat = 1 ∨ width.toNat = 4) :
    (BuildsAgree (Build.x86_64.hset size width index v) (Build.i386.hset size width index v)
        (index.toNat * width.toNat) ↔
      width.toNat = 1 ∨ size.toNat ≤ index.toNat * width.toNat % 2 ^ 32 ∨ index.toNat = 0) ∧
    (BuildsAgree (Build.x86_64.hsetof size width offset v) (Build.i386.hsetof size width offset v) offset.toNat ↔
      width.toNat = 1 ∨ size.toNat ≤ offset.toNat ∨ offset.toNat = 0) := by
  have hindex := index.isLt
  constructor
  · refine (heapSet_agree_iff hw fun h1 => ?_).trans ?_
    · rw [BitVec.toNat_mul, h1, Nat.mul_one]
      exact Nat.mod_eq_of_lt hindex
    · rw [BitVec.toNat_mul]
      rcases hw with h1 | h4
      · exact iff_of_true (.inl h1) (.inl h1)
      · refine or_congr_right (or_congr_right ?_)
        rw [h4]
        omega
  · refine (heapSet_agree_iff hw fun _ => rfl).trans ?_
    refine or_congr_right (or_congr_right ?_)
    omega

/-- A word at index 1 of a block of eight bytes: byte 4 on x86-64, byte 16 on i386. -/
theorem builds_disagree : Build.x86_64.hset 8 4 1 7 = .ok (4, [7, 0, 0, 0]) ∧
    Build.i386.hset 8 4 1 7 = .ok (16, [7, 0, 0, 0]) ∧
    ¬ BuildsAgree (Build.x86_64.hset 8 4 1 7) (Build.i386.hset 8 4 1 7) (1 * 4) := by
  refine ⟨by decide, by decide, fun h => ?_⟩
  exact absurd h.same (by decide)

/-- A character at index 1, and at offset 1. -/
theorem builds_agree_char :
    BuildsAgree (Build.x86_64.hset 8 1 1 7) (Build.i386.hset 8 1 1 7) 1 ∧
    BuildsAgree (Build.x86_64.hsetof 8 1 1 7) (Build.i386.hsetof 8 1 1 7) 1 := by
  obtain ⟨hset, hsetof⟩ := builds_agree_iff 8 1 1 1 7 (.inl rfl)
  exact ⟨hset.2 (.inl rfl), hsetof.2 (.inl rfl)⟩

end TileVm
