/-
The heap of the machine: the memory behind `malloc`ed values, the growable array `__heap` of
block descriptors that `tgc_create_block` appends to, loads and stores by address.
-/
import TileVm.Vm.Program

namespace TileVm

/-! ## Memory -/

/-- A contiguous piece of allocated memory. -/
structure Region where
  base : Addr
  bytes : List Byte
deriving DecidableEq, Repr

/-- The byte at an address of the region. -/
def Region.read (r : Region) (a : Addr) : Option Byte := r.bytes[(a - r.base).toNat]?

/-- `bytes` with `bs` written from offset `off` on. -/
def overwrite (bytes : List Byte) (off : Nat) (bs : List Byte) : List Byte :=
  bytes.take off ++ bs ++ bytes.drop (off + bs.length)

/-- Little-endian bytes of a word. -/
def leBytes : Nat → BitVec 64 → List Byte
  | 0, _ => []
  | n + 1, v => v.setWidth 8 :: leBytes n (v >>> 8)

/-- The word with the given little-endian bytes. -/
def ofLeBytes : List Byte → BitVec 64
  | [] => 0
  | b :: bs => (ofLeBytes bs <<< 8) ||| b.setWidth 64

/-! ## Blocks -/

/-- `gc_block`. `pointers` is `NULL` in every block that `tgc_create_block` makes. -/
structure GcBlock where
  value : Addr
  pointerCount : BitVec 64
  size : BitVec 64
  pointers : Addr
  marked : BitVec 64
deriving DecidableEq, Repr

/-- `sizeof(gc_block)`. -/
def gcBlockSize : Nat := 40

/-- The descriptor as it lies in memory. -/
def GcBlock.toBytes (b : GcBlock) : List Byte :=
  leBytes 8 b.value ++ leBytes 8 b.pointerCount ++ leBytes 8 b.size ++ leBytes 8 b.pointers ++ leBytes 8 b.marked

/-- The state behind `__heap` and `malloc`: the array of descriptors (a slot that `arraddnptr`
added and nobody wrote is `none`), the address and capacity of its storage, the counter
`__heap_block_count`, and the live `malloc`ed values. -/
structure TgcHeap where
  blocks : List (Option GcBlock)
  base : Addr
  cap : Nat
  blockCount : Nat
  values : List Region
deriving DecidableEq, Repr

/-- `__heap = NULL`. -/
def TgcHeap.empty : TgcHeap := ⟨[], 0, 0, 0, []⟩

/-- The byte of the descriptor array at an address. -/
def TgcHeap.readBlock (h : TgcHeap) (a : Addr) : Option Byte :=
  let off := (a - h.base).toNat
  match h.blocks[off / gcBlockSize]? with
  | some (some b) => b.toBytes[off % gcBlockSize]?
  | _ => none

/-- The byte at an address: in a `malloc`ed value, in the constant data, or in a descriptor. -/
def TgcHeap.readByte (h : TgcHeap) (const : Region) (a : Addr) : Option Byte :=
  ((h.values.findSome? (·.read a)).orElse fun _ => const.read a).orElse fun _ => h.readBlock a

/-- The `n` bytes at an address. -/
def TgcHeap.readBytes (h : TgcHeap) (const : Region) : Nat → Addr → Option (List Byte)
  | 0, _ => some []
  | n + 1, a => do
    let b ← h.readByte const a
    let bs ← h.readBytes const n (a + 1)
    return b :: bs

/-- A load of an `n`-byte word. -/
def TgcHeap.loadWord (h : TgcHeap) (const : Region) (n : Nat) (a : Addr) : Except Fault (BitVec 64) :=
  match h.readBytes const n a with
  | some bs => .ok (ofLeBytes bs)
  | none => .error .badAddress

/-- The bytes of the C string at an address, up to its NUL; `fuel` bounds its length. -/
def TgcHeap.readCStr (h : TgcHeap) (const : Region) : Nat → Addr → Except Fault (List Byte)
  | 0, _ => .error .badAddress
  | fuel + 1, a =>
    match h.readByte const a with
    | none => .error .badAddress
    | some b => if b = 0 then .ok [] else (h.readCStr const fuel (a + 1)).map (b :: ·)

/-- The number of readable bytes: no C string is longer. -/
def TgcHeap.extent (h : TgcHeap) (const : Region) : Nat :=
  (h.values.map (·.bytes.length)).sum + const.bytes.length + gcBlockSize * h.blocks.length

/-- A store through the pointer to the value that starts at `value`: the bytes have to lie in
that value. -/
def TgcHeap.storeValue (h : TgcHeap) (value : Addr) (off : Nat) (bs : List Byte) : Except Fault TgcHeap :=
  match h.values.findIdx? (·.base = value) with
  | none => .error .badAddress
  | some i =>
    match h.values[i]? with
    | none => .error .badAddress
    | some r =>
      if off + bs.length ≤ r.bytes.length then
        .ok { h with values := h.values.set i { r with bytes := overwrite r.bytes off bs } }
      else .error .badAddress

/-! ## Allocation -/

/-- The C allocator behind the heap. `malloc` returns fresh memory of the requested length or
`NULL`; `realloc` the new address of the descriptor array, which may differ from the old one. -/
structure Allocator where
  malloc : List Region → Nat → Option Region
  malloc_length : ∀ rs n r, malloc rs n = some r → r.bytes.length = n
  realloc : TgcHeap → Nat → Option Addr

/-- `stbds_arrmaybegrow(__heap, n)` with `stbds_arrgrowf`: at least double a capacity that is
too small, and at least 4. -/
def TgcHeap.maybeGrow (al : Allocator) (h : TgcHeap) (n : Nat) : Except Fault TgcHeap :=
  if h.cap < h.blocks.length + n then
    let minCap := h.blocks.length + n
    let newCap := if minCap < 2 * h.cap then 2 * h.cap else if minCap < 4 then 4 else minCap
    match al.realloc h newCap with
    | some base => .ok { h with base, cap := newCap }
    | none => .error .outOfMemory
  else .ok h

/-- `tgc_create_block`: the new descriptor, `pointer_count` unwritten slots after it, and the
address `&__heap[__heap_block_count]`. -/
def tgcCreateBlock (al : Allocator) (h : TgcHeap) (size pointerCount : Nat) : Except Fault (Addr × TgcHeap) := do
  let (value, values) :=
    match al.malloc h.values size with
    | some r => (r.base, h.values ++ [r])
    | none => (0, h.values)
  let block : GcBlock :=
    { value, pointerCount := BitVec.ofNat 64 pointerCount, size := BitVec.ofNat 64 size, pointers := 0, marked := 0 }
  -- arrput(__heap, block)
  let h ← { h with values }.maybeGrow al 1
  let h := { h with blocks := h.blocks ++ [some block] }
  -- arraddnptr(__heap, pointer_count)
  let h ← if pointerCount ≠ 0 then h.maybeGrow al pointerCount else .ok h
  let h := { h with blocks := h.blocks ++ List.replicate pointerCount none }
  let addr := h.base + BitVec.ofNat 64 (gcBlockSize * h.blockCount)
  return (addr, { h with blockCount := h.blockCount + (pointerCount + 1) })

end TileVm
