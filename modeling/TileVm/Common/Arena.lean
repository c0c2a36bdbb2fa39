/-
The arena: a doubly linked list of blocks of one capacity, from which requests are carved one behind
the other. A request that does not fit into the current block is carved out of a new one, whether it
fits into that or not.
-/
import Mathlib.Logic.Function.Basic
import TileVm.Vm.Program

namespace TileVm

/-! ## Memory -/

/-- `size` bytes from `start` on. -/
structure Span where
  start : Addr
  size : Nat
deriving DecidableEq, Repr

namespace Span

def Within (a b : Span) : Prop :=
  b.start.toNat ≤ a.start.toNat ∧ a.start.toNat + a.size ≤ b.start.toNat + b.size

def Apart (a b : Span) : Prop :=
  a.start.toNat + a.size ≤ b.start.toNat ∨ b.start.toNat + b.size ≤ a.start.toNat

instance (a b : Span) : Decidable (Within a b) := inferInstanceAs (Decidable (_ ∧ _))

instance (a b : Span) : Decidable (Apart a b) := inferInstanceAs (Decidable (_ ∨ _))

theorem Apart.symm {a b : Span} (h : Apart a b) : Apart b a := Or.symm h

theorem Apart.within {a b c : Span} (h : Apart a b) (hc : Within c b) : Apart a c := by
  unfold Apart Within at *
  omega

end Span

/-- `malloc`, given the storage in use: storage of at most `PTRDIFF_MAX` bytes, not `NULL`, that does not run over the end
of memory or into storage in use; or a failure. -/
structure Malloc where
  malloc : List Span → Nat → Option Addr
  bounded : ∀ chunks n a, malloc chunks n = some a → n < 2 ^ 63
  nonnull : ∀ chunks n a, malloc chunks n = some a → a ≠ 0
  inMemory : ∀ chunks n a, malloc chunks n = some a → a.toNat + n ≤ 2 ^ 64
  apart : ∀ chunks n a, malloc chunks n = some a → ∀ c ∈ chunks, Span.Apart ⟨a, n⟩ c

/-- `arena_t`. A `NULL` link is 0. -/
structure Arena where
  size : Nat
  capacity : Nat
  memory : Addr
  prev : Addr
  next : Addr
deriving DecidableEq, Repr

/-- `sizeof(arena_t)`. -/
def arenaSize : Nat := 40

/-- The arenas behind their addresses, and the storage in use. -/
structure ArenaHeap where
  arenas : Addr → Option Arena
  chunks : List Span

namespace ArenaHeap

def load (h : ArenaHeap) (a : Addr) : Except Fault Arena :=
  match h.arenas a with
  | some arena => .ok arena
  | none => .error .useAfterFree

def store (h : ArenaHeap) (a : Addr) (arena : Arena) : ArenaHeap :=
  { h with arenas := Function.update h.arenas a (some arena) }

/-- The heap with `size` more bytes in use. -/
def reserve (h : ArenaHeap) (start : Addr) (size : Nat) : ArenaHeap := { h with chunks := ⟨start, size⟩ :: h.chunks }

theorem load_ok {h : ArenaHeap} {a : Addr} {arena : Arena} : h.load a = .ok arena ↔ h.arenas a = some arena := by
  unfold load
  cases h.arenas a <;> simp

@[simp] theorem store_self (h : ArenaHeap) (a : Addr) (arena : Arena) : (h.store a arena).arenas a = some arena :=
  Function.update_self ..

@[simp] theorem store_of_ne (h : ArenaHeap) {a b : Addr} (arena : Arena) (hb : b ≠ a) :
    (h.store a arena).arenas b = h.arenas b :=
  Function.update_of_ne hb ..

@[simp] theorem store_chunks (h : ArenaHeap) (a : Addr) (arena : Arena) : (h.store a arena).chunks = h.chunks := rfl

end ArenaHeap

/-! ## Operations -/

/-- `malloc(size)`, whose failure nobody checks. -/
def mallocChunk (al : Malloc) (h : ArenaHeap) (size : Nat) : Except Fault (Addr × ArenaHeap) :=
  match al.malloc h.chunks size with
  | some a => .ok (a, h.reserve a size)
  | none => .error .outOfMemory

/-- `arena_init`. -/
def arenaInit (al : Malloc) (h : ArenaHeap) (size : Nat) : Except Fault (Addr × ArenaHeap) := do
  let (memory, h) ← mallocChunk al h size
  let (ptr, h) ← mallocChunk al h arenaSize
  return (ptr, h.store ptr { size := 0, capacity := size, memory, prev := 0, next := 0 })

/-- `arena_grow`. -/
def arenaGrow (al : Malloc) (h : ArenaHeap) (arena : Addr) : Except Fault (Addr × ArenaHeap) := do
  let a ← h.load arena
  let (next, h) ← arenaInit al h a.capacity
  let a ← h.load arena
  let h := h.store arena { a with next }
  let n ← h.load next
  return (next, h.store next { n with prev := arena })

/-- `arena_alloc` through a handle that holds `arena`: the pointer that it returns, and what the handle holds then. The
sums are taken in `size_t`. -/
def arenaAlloc (al : Malloc) (h : ArenaHeap) (arena : Addr) (size : Nat) : Except Fault (Addr × Addr × ArenaHeap) :=
  if size = 0 ∨ arena = 0 then .ok (0, arena, h)
  else do
    let a ← h.load arena
    let (arena, h) ← (if a.capacity < (a.size + size) % 2 ^ 64 then arenaGrow al h arena else .ok (arena, h) : Except Fault _)
    let a ← h.load arena
    let ptr := a.memory + BitVec.ofNat 64 a.size
    return (ptr, arena, h.store arena { a with size := (a.size + size) % 2 ^ 64 })

/-- A region that was returned, and the memory of the block it was taken from. -/
structure Taken where
  region : Span
  block : Span
deriving DecidableEq, Repr

/-- Requests of the given sizes, one after the other through one handle. -/
def arenaAllocs (al : Malloc) : List Nat → ArenaHeap → Addr → Except Fault (List Taken × Addr × ArenaHeap)
  | [], h, arena => .ok ([], arena, h)
  | size :: sizes, h, arena => do
    let (ptr, arena, h) ← arenaAlloc al h arena size
    let a ← h.load arena
    let (taken, arena, h) ← arenaAllocs al sizes h arena
    return (⟨⟨ptr, size⟩, ⟨a.memory, a.capacity⟩⟩ :: taken, arena, h)

end TileVm
