/-
The garbage collector: `tgc_mark`, `tgc_sweep` and `tgc_collect`. Marking follows the `pointers` of the
descriptors depth first from the local variables of one frame; sweeping deletes what has no mark from
the array it walks over.
-/
import Mathlib.Logic.Function.Basic
import TileVm.Lib.Loop
import TileVm.Vm.State

namespace TileVm

/-! ## Descriptors in memory -/

/-- What the collector works on: the array `__heap`, the descriptors in the arrays behind `pointers`, the lengths in front
of those arrays, and what is printed. -/
structure GcMemory where
  heap : TgcHeap
  nested : Addr → Option GcBlock
  arrlen : Addr → Nat
  out : List Byte

/-- The address of `__heap[i]`. -/
def TgcHeap.addr (h : TgcHeap) (i : Nat) : Addr := h.base + BitVec.ofNat 64 (gcBlockSize * i)

/-- The index of the slot of `__heap` at an address. -/
def TgcHeap.index? (h : TgcHeap) (a : Addr) : Option Nat :=
  let off := (a - h.base).toNat
  if off % gcBlockSize = 0 ∧ off / gcBlockSize < h.blocks.length then some (off / gcBlockSize) else none

namespace GcMemory

/-- The descriptor at an address. -/
def block? (m : GcMemory) (a : Addr) : Option GcBlock :=
  match m.heap.index? a with
  | some i => (m.heap.blocks[i]?).join
  | none => m.nested a

/-- `((gc_block*)a)->marked = 1`. -/
def setMarked (m : GcMemory) (a : Addr) : GcMemory :=
  match m.heap.index? a with
  | some i =>
    { m with heap := { m.heap with blocks := m.heap.blocks.modify i (Option.map fun b => { b with marked := 1 }) } }
  | none => { m with nested := Function.update m.nested a ((m.nested a).map fun b => { b with marked := 1 }) }

/-- `&block->pointers[i]` for `i < arrlenu(block->pointers)`, which is 0 for `NULL`. -/
def pointersOf (m : GcMemory) (b : GcBlock) : List Addr :=
  (List.range (if b.pointers = 0 then 0 else m.arrlen b.pointers)).map fun i =>
    b.pointers + BitVec.ofNat 64 (gcBlockSize * i)

end GcMemory

/-! ## Mark -/

/-- `tgc_mark`; `fuel` bounds the depth of the recursion. -/
def tgcMark : Nat → GcMemory → Addr → Except (Stop Fault) GcMemory
  | 0, _, _ => .error .fuel
  | fuel + 1, m, root =>
    if root = 0 then .ok m
    else
      match m.block? root with
      | none => .error (.fault .badAddress)
      | some block =>
        if block.marked ≠ 0 then .ok m
        else (m.pointersOf block).foldlM (tgcMark fuel) (m.setMarked root)

/-! ## Sweep -/

/-- `if (value) free(value)`. -/
def tgcFree (value : Addr) (values : List Region) : Except Fault (List Region) :=
  if value = 0 then .ok values
  else if values.any (·.base = value) then .ok (values.filter (·.base ≠ value))
  else .error .badFree

/-- The branch of the sweep for a block `b` without a mark at index `i`: `arrdel` moves the blocks behind it down, and the
value that is freed is that of the block now at `i`; behind the last one lies the copy of `b` itself. -/
def tgcDelete (m : GcMemory) (i : Nat) (b : GcBlock) : Except Fault GcMemory :=
  let blocks := m.heap.blocks.eraseIdx i
  let blockCount := (m.heap.blockCount + 2 ^ 64 - 1) % 2 ^ 64
  match (blocks[i]?).getD (some b) with
  | none => .error .uninitialized
  | some next => do
    let values ← tgcFree next.value m.heap.values
    return { m with heap := { m.heap with blocks, blockCount, values }, out := m.out ++ cstr "unmarked deleted\n" }

/-- The body of the loop of `tgc_sweep`. A slot that was never written has no mark to read. -/
def tgcSweepBody (m : GcMemory) (i : Nat) : Except Fault GcMemory :=
  match (m.heap.blocks[i]?).join with
  | none => .error .uninitialized
  | some b =>
    if b.marked ≠ 0 then
      .ok { m with
        heap := { m.heap with blocks := m.heap.blocks.set i (some { b with marked := 0 }) }, out := m.out ++ cstr "marked!\n" }
    else tgcDelete m i b

/-- The loop of `tgc_sweep` from index `i` on. It only deletes, so that it makes at most as many turns as there are slots. -/
def tgcSweepFrom : Nat → Nat → GcMemory → Except Fault GcMemory
  | 0, _, m => .ok m
  | turns + 1, i, m =>
    if i < m.heap.blocks.length then do
      let m ← tgcSweepBody m i
      tgcSweepFrom turns (i + 1) m
    else .ok m

/-- `tgc_sweep`. -/
def tgcSweep (m : GcMemory) : Except Fault GcMemory := tgcSweepFrom m.heap.blocks.length 0 m

/-! ## Collect -/

/-- The marking of local variable `i` of the frame given to `tgc_collect`. -/
def tgcMarkLocal (fuel : Nat) (frame : TvmFrame) (m : GcMemory) (i : Nat) : Except (Stop Fault) GcMemory :=
  match frame.localVars.get? i with
  | none => .error (.fault (.outOfBounds .localVars))
  | some o => if o.type = StackObjType.dataAddress.code then tgcMark fuel m o.ui64 else .ok m

/-- `tgc_collect`. -/
def tgcCollect (fuel : Nat) (frames : FrameStore) (root : Addr) (m : GcMemory) : Except (Stop Fault) GcMemory := do
  let frame ← (frames.load root).mapError .fault
  let m ← (List.range tvmMaxLocalVar).foldlM (tgcMarkLocal fuel frame) m
  (tgcSweep m).mapError .fault

/-- The memory of the collector in a state of the machine. -/
def Vm.gcMemory {W : Type} (vm : Vm W) (nested : Addr → Option GcBlock) (arrlen : Addr → Nat) : GcMemory :=
  ⟨vm.heap, nested, arrlen, vm.out⟩

end TileVm
