/-
Call frames: `malloc`ed nodes of a doubly linked list that hold 64 local variables. An address
is allocated when the store maps it to a frame; reading, writing or freeing any other address
is a fault, and so is the use of a link that was never written.
-/
import Mathlib.Logic.Function.Basic
import TileVm.Vm.Program

namespace TileVm

/-- `tvm_frame_t`. `malloc` leaves both links indeterminate (`none`). -/
structure TvmFrame where
  next : Option Addr
  prev : Option Addr
  localVars : CArray ObjectT tvmMaxLocalVar

/-- The allocated frames. -/
def FrameStore : Type := Addr → Option TvmFrame

namespace FrameStore

def empty : FrameStore := fun _ => none

def set (fs : FrameStore) (a : Addr) (f : TvmFrame) : FrameStore := Function.update fs a (some f)

def erase (fs : FrameStore) (a : Addr) : FrameStore := Function.update fs a none

/-- A read through a frame pointer. -/
def load (fs : FrameStore) (a : Addr) : Except Fault TvmFrame :=
  match fs a with
  | some f => .ok f
  | none => .error .useAfterFree

@[simp] theorem set_self (fs : FrameStore) (a : Addr) (f : TvmFrame) : fs.set a f a = some f :=
  Function.update_self ..

@[simp] theorem set_of_ne (fs : FrameStore) {a b : Addr} (f : TvmFrame) (h : b ≠ a) : fs.set a f b = fs b :=
  Function.update_of_ne h ..

@[simp] theorem erase_self (fs : FrameStore) (a : Addr) : fs.erase a a = none :=
  Function.update_self ..

@[simp] theorem erase_of_ne (fs : FrameStore) {a b : Addr} (h : b ≠ a) : fs.erase a b = fs b :=
  Function.update_of_ne h ..

theorem load_ok {fs : FrameStore} {a : Addr} {f : TvmFrame} : fs.load a = .ok f ↔ fs a = some f := by
  unfold load
  cases fs a <;> simp

end FrameStore

/-- `malloc(sizeof(tvm_frame_t))`: an address that is not in use and not `NULL`, or a failure. -/
structure FrameAllocator where
  malloc : FrameStore → Option Addr
  fresh : ∀ fs a, malloc fs = some a → fs a = none ∧ a ≠ 0

/-- The allocator that hands out the first free address of a pool. -/
def FrameAllocator.firstFit (pool : List Addr) : FrameAllocator where
  malloc fs := pool.find? fun a => (fs a).isNone && a != 0
  fresh fs a h := by
    have := List.find?_some h
    simpa using this

/-- The value of a link, which has to have been written. -/
def link : Option Addr → Except Fault Addr
  | some a => .ok a
  | none => .error .wildLink

@[simp] theorem link_some (a : Addr) : link (some a) = .ok a := rfl

theorem link_ok {l : Option Addr} {a : Addr} : link l = .ok a ↔ l = some a := by
  cases l <;> simp [link]

/-- `tvm_frame_init`. -/
def tvmFrameInit (al : FrameAllocator) (fs : FrameStore) : Except Fault (Addr × FrameStore) :=
  match al.malloc fs with
  | some a => .ok (a, fs.set a ⟨none, none, .fill ObjectT.zero⟩)
  | none => .error .outOfMemory

/-- `tvm_frame_next`. The pointer it is given has to be live already when it is called. -/
def tvmFrameNext (al : FrameAllocator) (fs : FrameStore) (node : Addr) : Except Fault (Addr × FrameStore) := do
  let n ← fs.load node
  let (new, fs) ← tvmFrameInit al fs
  let fs := fs.set node { n with next := some new }
  let m ← fs.load new
  return (new, fs.set new { m with prev := some node })

/-- `tvm_frame_free`. -/
def tvmFrameFree (fs : FrameStore) (last : Addr) : Except Fault FrameStore :=
  if last = 0 then .ok fs
  else
    match fs last with
    | some _ => .ok (fs.erase last)
    | none => .error .badFree

/-- `tvm_frame_prev`. -/
def tvmFramePrev (fs : FrameStore) (node : Addr) : Except Fault (Addr × FrameStore) := do
  let n ← fs.load node
  let prev ← link n.prev
  let p ← fs.load prev
  let next ← link p.next
  let fs ← tvmFrameFree fs next
  return (prev, fs)

end TileVm
