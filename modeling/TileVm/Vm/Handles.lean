/-
Handles of the heap over the runs of a process. `tgc_create_block` returns the address of a descriptor
inside a growable array, at an index it counts itself: a handle stays good as long as the array is
never moved, and is good at all only while the counter agrees with the length of the array, which
`tgc_destroy` empties without resetting the counter.
-/
import TileVm.Vm.Globals
import TileVm.Vm.Native
import TileVm.Vm.Run

namespace TileVm

variable {W : Type} {env : Env W} {al : Allocator} {h h' : TgcHeap} {vm vm' : Vm W}

/-! ## Creation -/

/-- The value of a new block: what `malloc` returned, `NULL` if it returned nothing. -/
def TgcHeap.newValue (al : Allocator) (h : TgcHeap) (size : Nat) : Addr × List Region :=
  match al.malloc h.values size with
  | some r => (r.base, h.values ++ [r])
  | none => (0, h.values)

/-- The descriptor that `tgc_create_block` writes. -/
def TgcHeap.newBlock (al : Allocator) (h : TgcHeap) (size pointerCount : Nat) : GcBlock where
  value := (h.newValue al size).1
  pointerCount := BitVec.ofNat 64 pointerCount
  size := BitVec.ofNat 64 size
  pointers := 0
  marked := 0

/-- The heap once the array has room for the descriptor `b` and `pointerCount` slots behind it. -/
def TgcHeap.withRoom (al : Allocator) (h : TgcHeap) (b : GcBlock) (pointerCount : Nat) : Except Fault TgcHeap := do
  let h ← h.maybeGrow al 1
  let h := { h with blocks := h.blocks ++ [some b] }
  if pointerCount ≠ 0 then h.maybeGrow al pointerCount else .ok h

/-- The heap of a call of `tgc_create_block` when its descriptors are placed. -/
def TgcHeap.placed (al : Allocator) (h : TgcHeap) (size pointerCount : Nat) : Except Fault TgcHeap :=
  { h with values := (h.newValue al size).2 }.withRoom al (h.newBlock al size pointerCount) pointerCount

theorem maybeGrow_ok {n : Nat} (hg : h.maybeGrow al n = .ok h') :
    h'.blocks = h.blocks ∧ h'.blockCount = h.blockCount ∧ h'.values = h.values := by
  unfold TgcHeap.maybeGrow at hg
  split at hg
  · dsimp only at hg
    split at hg
    · cases hg
      exact ⟨rfl, rfl, rfl⟩
    · cases hg
  · cases hg
    exact ⟨rfl, rfl, rfl⟩

theorem withRoom_ok {b : GcBlock} {pointerCount : Nat} (hr : h.withRoom al b pointerCount = .ok h') :
    h'.blocks = h.blocks ++ [some b] ∧ h'.blockCount = h.blockCount ∧ h'.values = h.values := by
  obtain ⟨g, hg, hr⟩ := Except.bind_ok hr
  obtain ⟨hblocks, hcount, hvalues⟩ := maybeGrow_ok hg
  dsimp only at hr
  rw [hblocks] at hr
  split at hr
  · obtain ⟨hblocks', hcount', hvalues'⟩ := maybeGrow_ok hr
    exact ⟨hblocks', hcount'.trans hcount, hvalues'.trans hvalues⟩
  · cases hr
    exact ⟨rfl, hcount, hvalues⟩

/-- The address that `tgc_create_block` returns lies at the index it counted, in the array as it was placed. -/
theorem tgcCreateBlock_eq (al : Allocator) (h : TgcHeap) (size pointerCount : Nat) :
    tgcCreateBlock al h size pointerCount = (h.placed al size pointerCount).map fun g =>
      (g.base + BitVec.ofNat 64 (gcBlockSize * g.blockCount),
        { g with blocks := g.blocks ++ List.replicate pointerCount none, blockCount := g.blockCount + (pointerCount + 1) }) := by
  unfold tgcCreateBlock TgcHeap.placed TgcHeap.withRoom TgcHeap.newBlock TgcHeap.newValue
  cases al.malloc h.values size with
  | none =>
    dsimp only
    cases TgcHeap.maybeGrow al { h with values := h.values } 1 with
    | error e => rfl
    | ok g =>
      dsimp only [bind, Except.bind]
      split
      · rfl
      · rfl
  | some r =>
    dsimp only
    cases TgcHeap.maybeGrow al { h with values := h.values ++ [r] } 1 with
    | error e => rfl
    | ok g =>
      dsimp only [bind, Except.bind]
      split
      · rfl
      · rfl

/-! ## One allocation -/

/-- An address returned for the block that was put at an index of the array, with the descriptor it had then. -/
structure Handle where
  address : Addr
  index : Nat
  block : GcBlock

/-- The address still leads to the block: to its index, where the same descriptor stands. -/
structure Handle.Designates (h : TgcHeap) (r : Handle) : Prop where
  address : r.address = h.base + BitVec.ofNat 64 (gcBlockSize * r.index)
  block : h.blocks[r.index]? = some (some r.block)

/-- An allocation whose address is right and which leaves the array where it is: the counter agrees with the length of
the array, up to addresses; and the array does not have to grow, or is empty, or grows in place. -/
structure InPlace (al : Allocator) (h : TgcHeap) (size pointerCount : Nat) : Prop where
  counted : (gcBlockSize * h.blockCount) % 2 ^ 64 = (gcBlockSize * h.blocks.length) % 2 ^ 64
  unmoved : h.blocks ≠ [] → ∀ g, h.placed al size pointerCount = .ok g → g.base = h.base

theorem index_eq_iff (base : Addr) (m n : Nat) :
    base + BitVec.ofNat 64 m = base + BitVec.ofNat 64 n ↔ m % 2 ^ 64 = n % 2 ^ 64 := by
  rw [BitVec.add_right_inj, ← BitVec.toNat_inj, BitVec.toNat_ofNat, BitVec.toNat_ofNat]

section

variable {size pointerCount : Nat} {a : Addr}

/-- What a call of `tgc_create_block` leaves. -/
theorem createBlock_ok (hc : tgcCreateBlock al h size pointerCount = .ok (a, h')) :
    ∃ g, h.placed al size pointerCount = .ok g ∧ h'.base = g.base ∧
      h'.blocks = h.blocks ++ some (h.newBlock al size pointerCount) :: List.replicate pointerCount none ∧
      a = h'.base + BitVec.ofNat 64 (gcBlockSize * h.blockCount) := by
  rw [tgcCreateBlock_eq] at hc
  obtain ⟨g, hg, hc⟩ := Except.map_eq_ok hc
  obtain ⟨hblocks, hcount, -⟩ := withRoom_ok hg
  cases hc
  refine ⟨g, hg, rfl, ?_, ?_⟩
  · dsimp only
    rw [hblocks, List.append_assoc]
    rfl
  · rw [hcount]

/-- The handle of a call. -/
def TgcHeap.handle (al : Allocator) (h : TgcHeap) (size pointerCount : Nat) (a : Addr) : Handle :=
  ⟨a, h.blocks.length, h.newBlock al size pointerCount⟩

/-- The new handle is good exactly when the counter agrees with the array. -/
theorem handle_designates_iff (hc : tgcCreateBlock al h size pointerCount = .ok (a, h')) :
    (h.handle al size pointerCount a).Designates h' ↔
      (gcBlockSize * h.blockCount) % 2 ^ 64 = (gcBlockSize * h.blocks.length) % 2 ^ 64 := by
  obtain ⟨g, -, -, hblocks, ha⟩ := createBlock_ok hc
  rw [← index_eq_iff h'.base, ← ha]
  constructor
  · intro hd
    exact hd.address
  · intro heq
    refine ⟨heq, ?_⟩
    show h'.blocks[h.blocks.length]? = _
    rw [hblocks, List.getElem?_append_right (Nat.le_refl _), Nat.sub_self]
    rfl

/-- An older good handle stays good exactly when the array stays where it is. -/
theorem older_designates_iff {r : Handle} (hr : r.Designates h)
    (hc : tgcCreateBlock al h size pointerCount = .ok (a, h')) : r.Designates h' ↔ h'.base = h.base := by
  obtain ⟨g, -, -, hblocks, -⟩ := createBlock_ok hc
  have hlt : r.index < h.blocks.length := (List.getElem?_eq_some_iff.1 hr.block).1
  constructor
  · intro hr'
    have haddr := hr'.address.symm.trans hr.address
    exact (BitVec.add_left_inj _).1 haddr
  · intro hbase
    constructor
    · rw [hbase]
      exact hr.address
    · rw [hblocks, List.getElem?_append_left hlt]
      exact hr.block

/-- All handles into the array are good after the call exactly when it is made in place. -/
theorem inPlace_iff {handles : List Handle} (hgood : ∀ r ∈ handles, r.Designates h) (hnil : h.blocks = [] ↔ handles = [])
    (hc : tgcCreateBlock al h size pointerCount = .ok (a, h')) :
    (∀ r ∈ handles ++ [h.handle al size pointerCount a], r.Designates h') ↔ InPlace al h size pointerCount := by
  obtain ⟨g, hg, hbase, -, -⟩ := createBlock_ok hc
  constructor
  · intro hall
    constructor
    · exact (handle_designates_iff hc).1 (hall _ (List.mem_append_right _ (List.mem_singleton_self _)))
    · intro hne g' hg'
      obtain ⟨r, hr⟩ := List.exists_mem_of_ne_nil handles fun hempty => hne (hnil.2 hempty)
      cases hg.symm.trans hg'
      rw [← hbase]
      exact (older_designates_iff (hgood r hr) hc).1 (hall r (List.mem_append_left _ hr))
  · rintro ⟨hcounted, hunmoved⟩ r hr
    rcases List.mem_append.1 hr with hold | hnew
    · have hne : h.blocks ≠ [] := fun hempty => by
        rw [hnil.1 hempty] at hold
        cases hold
      exact (older_designates_iff (hgood r hold) hc).2 (hbase.trans (hunmoved hne g hg))
    · rw [List.mem_singleton.1 hnew]
      exact (handle_designates_iff hc).2 hcounted

end

/-! ## The process -/

/-- `tgc_destroy`: `arrfree` on the array; the counter is left. -/
def tgcDestroy (h : TgcHeap) : TgcHeap := { h with blocks := [], base := 0, cap := 0 }

/-- The first block of a new array has the right address only if the runs before allocated nothing, up to addresses. -/
theorem destroyed_designates_iff {size pointerCount : Nat} {a : Addr}
    (hc : tgcCreateBlock al (tgcDestroy h) size pointerCount = .ok (a, h')) :
    ((tgcDestroy h).handle al size pointerCount a).Designates h' ↔ (gcBlockSize * h.blockCount) % 2 ^ 64 = 0 :=
  handle_designates_iff hc

/-- A process between two runs, or in one, with the handles returned since the last `tgc_destroy`. `__heap` and its
counter belong to the process. -/
inductive Process (W : Type) where
  | idle (heap : TgcHeap)
  | running (vm : Vm W) (handles : List Handle)

/-- The operands of the `OP_HALLOC` that is to be executed. -/
def Vm.hallocSize (vm : Vm W) : Nat := (vm.slot (vm.sp - 2)).ui32.toNat
def Vm.hallocPointers (vm : Vm W) : Nat := (vm.slot (vm.sp - 1)).ui32.toNat

/-- The handle that an `OP_HALLOC` from `vm` to `vm'` leaves on top of the stack. -/
def Vm.returned (env : Env W) (vm vm' : Vm W) : Handle :=
  vm.heap.handle env.heap vm.hallocSize vm.hallocPointers (vm'.slot (vm'.sp - 1)).ui64

/-- The steps of a process: `tvm_init` with a program, turns of `tvm_run`, and the end of `tvm_run`. -/
inductive Process.Step (env : Env W) : Process W → Process W → Prop
  | start {heap : TgcHeap} {program : TvmProgram} {world : W} {vm : Vm W} (init : tvmInit env program world = .ok vm) :
      Step env (.idle heap) (.running { vm with heap } [])
  | exec {vm vm' : Vm W} {handles : List Handle} (loops : tvmRunCond vm = true) (body : tvmRunBody env vm = .ok vm')
      (other : vm.nextOp ≠ some .halloc) : Step env (.running vm handles) (.running vm' handles)
  | halloc {vm vm' : Vm W} {handles : List Handle} (loops : tvmRunCond vm = true) (body : tvmRunBody env vm = .ok vm')
      (is : vm.nextOp = some .halloc) :
      Step env (.running vm handles) (.running vm' (handles ++ [vm.returned env vm']))
  | finish {vm : Vm W} {handles : List Handle} {frames : FrameStore} (ends : tvmRunCond vm = false)
      (freed : tvmFrameFree vm.frames vm.frame = .ok frames) :
      Step env (.running vm handles) (.idle (tgcDestroy vm.heap))

namespace Process

/-- All handles are good. -/
def Good : Process W → Prop
  | .idle _ => True
  | .running vm handles => ∀ r ∈ handles, r.Designates vm.heap

/-- An allocation that is to be executed is made in place. -/
def AllocatesInPlace (env : Env W) : Process W → Prop
  | .idle _ => True
  | .running vm _ => tvmRunCond vm = true → vm.nextOp = some .halloc →
    InPlace env.heap vm.heap vm.hallocSize vm.hallocPointers

/-- The array is empty when there are no handles into it. -/
def Counted : Process W → Prop
  | .idle heap => heap.blocks = []
  | .running vm handles => vm.heap.blocks = [] ↔ handles = []

end Process

/-- `tvm_run` ends with `tgc_destroy`. -/
theorem tvmRun_heap {fuel : Nat} (hrun : tvmRun env fuel vm = .ok vm') :
    ∃ last, Loop.run tvmRunCond (tvmRunBody env) fuel vm = .ok last ∧ vm'.heap = tgcDestroy last.heap := by
  obtain ⟨last, hlast, hrun⟩ := Except.bind_ok hrun
  refine ⟨last, hlast, ?_⟩
  dsimp only at hrun
  split at hrun
  · cases hrun
  · cases hrun
    rfl

/-- A step of another instruction leaves the array. -/
theorem other_array (hbody : tvmRunBody env vm = .ok vm') (hop : vm.nextOp ≠ some .halloc) :
    vm'.heap.base = vm.heap.base ∧ vm'.heap.blocks = vm.heap.blocks := by
  obtain ⟨inst, hinst, hexec⟩ := Except.bind_ok (tvmRunBody_ok hbody)
  unfold tvmExecInst at hexec
  unfold Vm.nextOp at hop
  rw [show vm.program.code.get? vm.ip = some inst from CArray.load_ok.1 hinst] at hop
  split at hexec
  · rename_i op hopcode
    have hne : op ≠ .halloc := fun heq => hop (heq ▸ hopcode)
    have hkept := (tvmExecOp_descriptors env hne).of_ok hexec
    have hbase := congrArg TgcHeap.base hkept
    have hblocks := congrArg TgcHeap.blocks hkept
    exact ⟨hbase, hblocks⟩
  · cases hexec

theorem slot_of_stackAt {i : Nat} {o : ObjectT} (ho : vm.stackAt i = .ok o) : vm.slot i = o := by
  unfold Vm.slot
  rw [CArray.load_ok.1 ho]
  rfl

theorem slot_stackSet {i : Nat} {o : ObjectT} (hset : vm.stackSet i o = .ok vm') : vm'.slot i = o := by
  obtain ⟨stack, hstack, rfl⟩ := Except.map_eq_ok hset
  obtain ⟨hlt, rfl⟩ := CArray.store_ok.1 hstack
  exact slot_put (w := { vm with stack := vm.stack.put i o }) rfl hlt

/-- An `OP_HALLOC` calls `tgc_create_block` with its operands and leaves the address on top of the stack. -/
theorem halloc_creates (hbody : tvmRunBody env vm = .ok vm') (hop : vm.nextOp = some .halloc) :
    tgcCreateBlock env.heap vm.heap vm.hallocSize vm.hallocPointers =
      .ok ((vm'.slot (vm'.sp - 1)).ui64, vm'.heap) := by
  obtain ⟨inst, hinst, hexec⟩ := Except.bind_ok (tvmRunBody_ok hbody)
  unfold Vm.nextOp at hop
  rw [show vm.program.code.get? vm.ip = some inst from CArray.load_ok.1 hinst] at hop
  have hop : OpType.ofNat? inst.type.toNat = some .halloc := hop
  unfold tvmExecInst at hexec
  rw [hop] at hexec
  have hexec : opHalloc env vm = .ok (.ok, vm') := hexec
  unfold opHalloc at hexec
  split at hexec
  · cases hexec
  · obtain ⟨size, hsize, hexec⟩ := Except.bind_ok hexec
    obtain ⟨count, hcount, hexec⟩ := Except.bind_ok hexec
    obtain ⟨⟨a, heap⟩, hcreate, hexec⟩ := Except.bind_ok hexec
    obtain ⟨w, hset, hexec⟩ := Except.bind_ok hexec
    have htop := slot_stackSet hset
    obtain ⟨stack, -, rfl⟩ := Except.map_eq_ok hset
    cases hexec
    unfold Vm.hallocSize Vm.hallocPointers
    rw [slot_of_stackAt hsize, slot_of_stackAt hcount, hcreate]
    have htop : ({ vm with heap, stack } : Vm W).slot (vm.sp - 1 - 1) = ⟨StackObjType.dataAddress.code, a⟩ := htop
    exact congrArg (fun o : ObjectT => Except.ok (o.ui64, heap)) htop.symm

/-! ## Runs of the process -/

namespace Process

variable {p p' : Process W}

theorem Step.counted (hs : Step env p p') (hc : p.Counted) : p'.Counted := by
  cases hs with
  | start => exact iff_of_true hc rfl
  | @exec vm vm' handles _ body other =>
    show vm'.heap.blocks = [] ↔ handles = []
    rw [(other_array body other).2]
    exact hc
  | halloc _ body is =>
    obtain ⟨g, -, -, hblocks, -⟩ := createBlock_ok (halloc_creates body is)
    constructor
    · intro hnil
      rw [hblocks] at hnil
      exact absurd hnil (by simp)
    · intro hnil
      exact absurd hnil (by simp)
  | finish => exact rfl

/-- What one step does to the handles: it keeps them good unless it allocates out of place. -/
theorem Step.good_iff (hs : Step env p p') (hc : p.Counted) (hg : p.Good) : p'.Good ↔ p.AllocatesInPlace env := by
  cases hs with
  | start => exact iff_of_true (fun r hr => nomatch hr) trivial
  | @exec vm vm' handles _ body other =>
    refine iff_of_true (fun r hr => ?_) fun _ is => absurd is other
    obtain ⟨hbase, hblocks⟩ := other_array body other
    obtain ⟨haddress, hblock⟩ := hg r hr
    constructor
    · rw [haddress, hbase]
    · rw [hblocks]
      exact hblock
  | halloc loops body is =>
    have hiff := inPlace_iff hg hc (halloc_creates body is)
    constructor
    · intro hgood _ _
      exact hiff.1 hgood
    · intro hplace
      exact hiff.2 (hplace loops is)
  | finish ends =>
    refine iff_of_true trivial fun loops => ?_
    rw [ends] at loops
    cases loops

end Process

/-- A run of a process: `n` steps from its beginning, with `__heap` empty. -/
structure ProcessRun (env : Env W) (ρ : Nat → Process W) (n : Nat) : Prop where
  begins : ρ 0 = .idle .empty
  steps : ∀ i < n, Process.Step env (ρ i) (ρ (i + 1))

theorem ProcessRun.counted {ρ : Nat → Process W} {n : Nat} (hrun : ProcessRun env ρ n) : ∀ i ≤ n, (ρ i).Counted
  | 0, _ => by
    rw [hrun.begins]
    exact rfl
  | i + 1, hi => (hrun.steps i hi).counted (hrun.counted i (Nat.le_of_succ_le hi))

/-- In every run of a process: all addresses that `tgc_create_block` returned since the last `tgc_destroy` designate
their blocks in every state, if and only if every allocation is made in place. -/
theorem handles_good_iff (env : Env W) (ρ : Nat → Process W) (n : Nat) (hrun : ProcessRun env ρ n) :
    (∀ i ≤ n, (ρ i).Good) ↔ ∀ i < n, (ρ i).AllocatesInPlace env := by
  constructor
  · intro hgood i hi
    have hc := hrun.counted i (Nat.le_of_lt hi)
    exact ((hrun.steps i hi).good_iff hc (hgood i (Nat.le_of_lt hi))).1 (hgood (i + 1) hi)
  · intro hplace i
    induction i with
    | zero =>
      intro _
      rw [hrun.begins]
      exact trivial
    | succ i ih =>
      intro hi
      have hc := hrun.counted i (Nat.le_of_succ_le hi)
      exact ((hrun.steps i hi).good_iff hc (ih (Nat.le_of_succ_le hi))).2 (hplace i hi)


/-- A host where the array moves whenever it grows. -/
def movingHost : Env Unit :=
  { Env.bare [64] with
    heap := {
      malloc rs n := some ⟨BitVec.ofNat 64 (4096 * (rs.length + 1)), List.replicate n 0⟩
      malloc_length _ _ _ h := Option.some.inj h ▸ List.length_replicate ..
      realloc _ n := some (BitVec.ofNat 64 (65536 * n)) } }

/-- The instructions `push 8`, `push 0`, `halloc`, `push 8`, `push 4`, `halloc`: five descriptors more than one. -/
def twoAllocations : TvmProgram :=
  let push (n : BitVec 64) : Opcode := ⟨OpType.push.code, ⟨StackObjType.number.code, n⟩⟩
  let halloc : Opcode := ⟨OpType.halloc.code, .zero⟩
  { TvmProgram.zero with
    code := TvmProgram.zero.code.putAll 0 [push 8, push 0, halloc, push 8, push 4, halloc], size := 6 }

/-- The first allocation of that process, and the second one, which moves the array. -/
theorem twoAllocations_run : ∃ ρ : Nat → Process Unit, ProcessRun movingHost ρ 7 ∧
    (∃ vm r, ρ 4 = .running vm [r] ∧ r.address = 262144 ∧ r.index = 0) ∧
    ∃ vm r r', ρ 7 = .running vm [r, r'] ∧ r.address = 262144 ∧ r.index = 0 ∧ vm.heap.base = 524288 := by
  obtain ⟨vm0, vm1, vm2, vm3, vm4, vm5, vm6, ⟨h0, he⟩, h1, h2, h3, h4, h5, h6, haddr, hindex, hbase⟩ :
      ∃ vm0 vm1 vm2 vm3 vm4 vm5 vm6 : Vm Unit,
      (tvmInit movingHost twoAllocations () = .ok vm0 ∧ vm0.heap = .empty) ∧
      (tvmRunCond vm0 = true ∧ tvmRunBody movingHost vm0 = .ok vm1 ∧ vm0.nextOp = some .push) ∧
      (tvmRunCond vm1 = true ∧ tvmRunBody movingHost vm1 = .ok vm2 ∧ vm1.nextOp = some .push) ∧
      (tvmRunCond vm2 = true ∧ tvmRunBody movingHost vm2 = .ok vm3 ∧ vm2.nextOp = some .halloc) ∧
      (tvmRunCond vm3 = true ∧ tvmRunBody movingHost vm3 = .ok vm4 ∧ vm3.nextOp = some .push) ∧
      (tvmRunCond vm4 = true ∧ tvmRunBody movingHost vm4 = .ok vm5 ∧ vm4.nextOp = some .push) ∧
      (tvmRunCond vm5 = true ∧ tvmRunBody movingHost vm5 = .ok vm6 ∧ vm5.nextOp = some .halloc) ∧
      (vm2.returned movingHost vm3).address = 262144 ∧ (vm2.returned movingHost vm3).index = 0 ∧
      vm6.heap.base = 524288 :=
    ⟨_, _, _, _, _, _, _, ⟨rfl, rfl⟩, ⟨rfl, rfl, rfl⟩, ⟨rfl, rfl, rfl⟩, ⟨rfl, rfl, rfl⟩, ⟨rfl, rfl, rfl⟩,
      ⟨rfl, rfl, rfl⟩, ⟨rfl, rfl, rfl⟩, rfl, rfl, rfl⟩
  have push_ne {vm : Vm Unit} (h : vm.nextOp = some .push) : vm.nextOp ≠ some .halloc := by
    rw [h]
    decide
  -- the value that the first `halloc` returns
  let r := vm2.returned movingHost vm3
  let states : List (Process Unit) := [.idle .empty, .running vm0 [], .running vm1 [], .running vm2 [],
    .running vm3 [r], .running vm4 [r], .running vm5 [r]]
  refine ⟨fun i => states.getD i (.running vm6 [r, vm5.returned movingHost vm6]), ⟨rfl, ?_⟩,
    ⟨vm3, r, rfl, haddr, hindex⟩, vm6, r, _, rfl, haddr, hindex, hbase⟩
  rintro (_ | _ | _ | _ | _ | _ | _ | i) hi
  · show Process.Step movingHost (.idle .empty) (.running vm0 [])
    rw [← he]
    exact .start h0
  · exact .exec h1.1 h1.2.1 (push_ne h1.2.2)
  · exact .exec h2.1 h2.2.1 (push_ne h2.2.2)
  · exact .halloc h3.1 h3.2.1 h3.2.2
  · exact .exec h4.1 h4.2.1 (push_ne h4.2.2)
  · exact .exec h5.1 h5.2.1 (push_ne h5.2.2)
  · exact .halloc h6.1 h6.2.1 h6.2.2
  · omega

theorem handles_good_first : ∃ ρ : Nat → Process Unit, ProcessRun movingHost ρ 4 ∧
    (∃ vm r, ρ 4 = .running vm [r] ∧ r.address = 262144 ∧ r.index = 0) ∧
    ((∀ i ≤ 4, (ρ i).Good) ↔ ∀ i < 4, (ρ i).AllocatesInPlace movingHost) := by
  obtain ⟨ρ, hrun, hfirst, -⟩ := twoAllocations_run
  have hrun4 : ProcessRun movingHost ρ 4 := ⟨hrun.begins, fun i hi => hrun.steps i (by omega)⟩
  exact ⟨ρ, hrun4, hfirst, handles_good_iff movingHost ρ 4 hrun4⟩

/-- The second allocation moves the array, and the address that the first one returned is left behind. -/
theorem handle_left_behind : ∃ ρ : Nat → Process Unit, ProcessRun movingHost ρ 7 ∧ ¬ (ρ 7).Good := by
  obtain ⟨ρ, hrun, -, vm, r, r', h7, haddr, hindex, hbase⟩ := twoAllocations_run
  refine ⟨ρ, hrun, fun hgood => ?_⟩
  rw [h7] at hgood
  have heq := (hgood r (List.mem_cons_self ..)).address
  rw [haddr, hindex, hbase] at heq
  exact absurd heq (by decide)

end TileVm
