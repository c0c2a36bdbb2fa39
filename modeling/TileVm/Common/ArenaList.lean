/-
The blocks of an arena as a doubly linked list. A request that does not fit links a new block behind the
one it was given, whatever was linked there before. Requests through the owner's handle pass the last
block of the list. A copy of the handle goes on with the block that it was copied with, so that the
second block to be linked behind that one takes the place of the first, and the first is never freed.
-/
import Mathlib.Data.List.Induction
import Mathlib.Data.List.Nodup
import TileVm.Common.Carving
import TileVm.Lib.LinkedList
import TileVm.Lib.Loop

namespace TileVm

open LinkedList

/-! ## Requests -/

/-- The handle of a request: the field that the owner keeps, or a copy of it, which lasts for this request. -/
inductive ArenaHandle
  | owner
  | byValue
deriving DecidableEq, Repr

structure ArenaRequest where
  handle : ArenaHandle
  size : Nat
deriving DecidableEq, Repr

/-- An arena in use: the memory, the block that the owner's handle holds, and the blocks created so far. -/
structure ArenaState where
  heap : ArenaHeap
  owner : Addr
  created : List Addr

/-- `owner = arena_init(capacity)`. -/
def ArenaState.init (al : Malloc) (h : ArenaHeap) (capacity : Nat) : Except Fault ArenaState := do
  let (arena, h) ← arenaInit al h capacity
  return ⟨h, arena, [arena]⟩

/-- `arena_alloc(&owner, size)`, or the same on a copy of `owner`. -/
def ArenaState.request (al : Malloc) (s : ArenaState) (r : ArenaRequest) : Except Fault ArenaState := do
  let (_, arena, heap) ← arenaAlloc al s.heap s.owner r.size
  let owner := match r.handle with
    | .owner => arena
    | .byValue => s.owner
  return ⟨heap, owner, if arena = s.owner then s.created else s.created ++ [arena]⟩

def ArenaState.requests (al : Malloc) (rs : List ArenaRequest) (s : ArenaState) : Except Fault ArenaState :=
  rs.foldlM (ArenaState.request al) s

/-! ## Native functions -/

/-- `tci_prepare_last_module`, as far as the arena goes. `nativeFuncSize` is `sizeof(tci_native_func_t)`. -/
def tciPrepareLastModule (al : Malloc) (nativeFuncSize : Nat) (s : ArenaState) (nativeFuncCount : Nat) :
    Except Fault ArenaState :=
  s.request al ⟨.owner, nativeFuncSize * nativeFuncCount⟩

/-- `tci_prepare_function`, which gets the arena by value. -/
def tciPrepareFunction (al : Malloc) (s : ArenaState) (acount : Nat) : Except Fault ArenaState :=
  s.request al ⟨.byValue, 8 * acount⟩

/-- `tci_metaprogram_to_ffi`, for functions of these argument counts. -/
def tciMetaprogramToFfi (al : Malloc) (nativeFuncSize : Nat) (s : ArenaState) (acounts : List Nat) :
    Except Fault ArenaState := do
  let s ← tciPrepareLastModule al nativeFuncSize s acounts.length
  acounts.foldlM (tciPrepareFunction al) s

/-- The requests that it makes. -/
def ffiRequests (nativeFuncSize : Nat) (acounts : List Nat) : List ArenaRequest :=
  ⟨.owner, nativeFuncSize * acounts.length⟩ :: acounts.map fun acount => ⟨.byValue, 8 * acount⟩

theorem tciMetaprogramToFfi_eq (al : Malloc) (nativeFuncSize : Nat) (s : ArenaState) (acounts : List Nat) :
    tciMetaprogramToFfi al nativeFuncSize s acounts = s.requests al (ffiRequests nativeFuncSize acounts) := by
  unfold tciMetaprogramToFfi ArenaState.requests ffiRequests
  rw [List.foldlM_cons]
  simp only [List.foldlM_map]
  rfl

/-! ## Destruction -/

/-- The heap without the storage at `a` and the arena in it. -/
def ArenaHeap.drop (h : ArenaHeap) (a : Addr) : ArenaHeap :=
  ⟨Function.update h.arenas a none, h.chunks.filter (·.start ≠ a)⟩

/-- `free`. -/
def ArenaHeap.free (h : ArenaHeap) (a : Addr) : Except Fault ArenaHeap :=
  if h.chunks.any (·.start = a) then .ok (h.drop a) else .error .badFree

/-- The first loop of `arena_destroy`: the head of the list. -/
def arenaHead : Nat → ArenaHeap → Addr → Except (Stop Fault) Addr
  | 0, _, _ => .error .fuel
  | fuel + 1, h, arena => do
    let a ← (h.load arena).mapError .fault
    if a.prev ≠ 0 then arenaHead fuel h a.prev else return arena

/-- The second loop of `arena_destroy`, with what it frees. -/
def arenaFreeFrom : Nat → ArenaHeap → Addr → Except (Stop Fault) (ArenaHeap × List Addr)
  | 0, _, _ => .error .fuel
  | fuel + 1, h, arena =>
    if arena ≠ 0 then do
      let a ← (h.load arena).mapError .fault
      let h ← (h.free a.memory).mapError .fault
      let h ← (h.free arena).mapError .fault
      let (h, freed) ← arenaFreeFrom fuel h a.next
      return (h, a.memory :: arena :: freed)
    else return (h, [])

/-- `arena_destroy`; `fuel` bounds the turns of each loop. -/
def arenaDestroy (fuel : Nat) (h : ArenaHeap) (arena : Addr) : Except (Stop Fault) (ArenaHeap × List Addr) := do
  let head ← arenaHead fuel h arena
  arenaFreeFrom fuel h head

/-! ## What is promised, and the condition for it -/

/-- The links of a block. -/
def ArenaHeap.links (h : ArenaHeap) (b : Addr) : Option (Addr × Addr) := (h.arenas b).map fun a => (a.prev, a.next)

/-- What belongs to a block: its memory and the `arena_t` itself. -/
def ArenaHeap.blockOf (h : ArenaHeap) (b : Addr) : List Addr :=
  match h.arenas b with
  | some a => [a.memory, b]
  | none => []

/-- All blocks created are in one list with the owner's block, linked back and on. -/
structure ArenaState.Linked (s : ArenaState) (bs : List Addr) : Prop where
  all : bs.Perm s.created
  owner : s.owner ∈ bs
  chain : Segment s.heap.links 0 bs 0

/-- `arena_destroy` on the owner's handle returns, and it has freed the storage of each block created once. -/
def ArenaState.FreesOnce (s : ArenaState) : Prop :=
  ∃ h freed, (∀ fuel, s.created.length < fuel → arenaDestroy fuel s.heap s.owner = .ok (h, freed)) ∧
    freed.Perm (s.created.flatMap s.heap.blockOf)

/-- No request overflows a block that a request through a copy has overflowed before. `used` bytes of the owner's block are
taken, and `stale` says that a copy has moved on from it. -/
def keepsLinks (capacity : Nat) : Nat → Bool → List ArenaRequest → Bool
  | _, _, [] => true
  | used, stale, r :: rs =>
    if r.size = 0 then keepsLinks capacity used stale rs
    else if capacity < (used + r.size) % 2 ^ 64 then
      !stale && match r.handle with
        | .owner => keepsLinks capacity (r.size % 2 ^ 64) false rs
        | .byValue => keepsLinks capacity used true rs
    else keepsLinks capacity ((used + r.size) % 2 ^ 64) stale rs

/-! ## Storage of the blocks -/

section Storage

variable {al : Malloc} {h h' : ArenaHeap} {cap size : Nat} {arena arena' ptr memory x : Addr} {a : Arena} {bs : List Addr}

/-- Some storage in use begins here. -/
def ArenaHeap.InUse (h : ArenaHeap) (x : Addr) : Prop := ∃ n, 0 < n ∧ ⟨x, n⟩ ∈ h.chunks

/-- The blocks `bs` lie in memory, each in storage of its own. -/
structure ArenaHeap.Owns (h : ArenaHeap) (cap : Nat) (bs : List Addr) : Prop where
  block : ∀ b ∈ bs, b ≠ 0 ∧ ∃ a, h.arenas b = some a ∧ a.capacity = cap
  inUse : ∀ x ∈ bs.flatMap h.blockOf, h.InUse x
  distinct : (bs.flatMap h.blockOf).Nodup

/-- The block is where it was, of the same capacity and with the same memory. -/
def ArenaHeap.SameBlock (h h' : ArenaHeap) (b : Addr) : Prop :=
  (h'.arenas b).map (fun a => (a.capacity, a.memory)) = (h.arenas b).map fun a => (a.capacity, a.memory)

theorem NewStorage.ne (hnew : NewStorage h memory size) (hsize : 0 < size) (hx : h.InUse x) : memory ≠ x := by
  rintro rfl
  obtain ⟨n, hn, hchunk⟩ := hx
  have hapart : memory.toNat + size ≤ memory.toNat ∨ memory.toNat + n ≤ memory.toNat := hnew.apart _ hchunk
  omega

theorem ArenaHeap.blockOf_eq (ha : h.arenas x = some a) : h.blockOf x = [a.memory, x] := by
  unfold ArenaHeap.blockOf
  rw [ha]

theorem ArenaHeap.links_eq (ha : h.arenas x = some a) : h.links x = some (a.prev, a.next) := by
  unfold ArenaHeap.links
  rw [ha]
  rfl

/-- Storing the number of bytes that are taken changes nothing else of any block. -/
theorem ArenaHeap.store_size_map {β : Type} (f : Arena → β) (hf : ∀ a size, f { a with size } = f a)
    (ha : h.arenas arena = some a) (b : Addr) : ((h.store arena { a with size }).arenas b).map f = (h.arenas b).map f := by
  by_cases hb : b = arena
  · rw [hb, ArenaHeap.store_self, ha]
    exact congrArg some (hf a size)
  · rw [ArenaHeap.store_of_ne _ _ hb]

theorem ArenaHeap.SameBlock.blockOf {b : Addr} (hsame : h.SameBlock h' b) : h'.blockOf b = h.blockOf b := by
  unfold SameBlock at hsame
  unfold ArenaHeap.blockOf
  cases ha : h.arenas b with
  | none =>
    rw [ha, Option.map_none, Option.map_eq_none_iff] at hsame
    rw [hsame]
  | some a =>
    rw [ha, Option.map_some, Option.map_eq_some_iff] at hsame
    obtain ⟨a', ha', heq⟩ := hsame
    rw [ha']
    simp only [(Prod.mk.inj heq).2]

theorem blockOf_flatMap (hsame : ∀ b ∈ bs, h.SameBlock h' b) : bs.flatMap h'.blockOf = bs.flatMap h.blockOf :=
  List.flatMap_congr fun b hb => (hsame b hb).blockOf

namespace ArenaHeap.Owns

theorem mem_blockOf (hb : x ∈ bs) (ha : h.arenas x = some a) : a.memory ∈ bs.flatMap h.blockOf ∧ x ∈ bs.flatMap h.blockOf := by
  constructor
  · exact List.mem_flatMap.mpr ⟨x, hb, by simp [blockOf_eq ha]⟩
  · exact List.mem_flatMap.mpr ⟨x, hb, by simp [blockOf_eq ha]⟩

theorem perm (howns : h.Owns cap bs) {cs : List Addr} (hperm : bs.Perm cs) : h.Owns cap cs where
  block b hb := howns.block b (hperm.mem_iff.mpr hb)
  inUse x hx := howns.inUse x ((hperm.flatMap_right _).mem_iff.mpr hx)
  distinct := ((hperm.flatMap_right _).nodup_iff).mp howns.distinct

theorem inUse_block (howns : h.Owns cap bs) (hb : x ∈ bs) : h.InUse x := by
  obtain ⟨-, a, ha, -⟩ := howns.block x hb
  exact howns.inUse x (mem_blockOf hb ha).2

theorem nodup (howns : h.Owns cap bs) : bs.Nodup := by
  obtain ⟨-, hdisjoint⟩ := List.nodup_flatMap.mp howns.distinct
  refine List.Pairwise.imp_of_mem ?_ hdisjoint
  rintro b c hb hc hbc rfl
  obtain ⟨-, a, ha, -⟩ := howns.block b hb
  have hmem : b ∈ h.blockOf b := by simp [blockOf_eq ha]
  exact hbc hmem hmem

theorem tail (howns : h.Owns cap (x :: bs)) : h.Owns cap bs where
  block b hb := howns.block b (List.mem_cons_of_mem x hb)
  inUse y hy := howns.inUse y (by rw [List.flatMap_cons]; exact List.mem_append_right _ hy)
  distinct := by
    have hdistinct := howns.distinct
    rw [List.flatMap_cons, List.nodup_append] at hdistinct
    exact hdistinct.2.1

theorem append_left {cs : List Addr} (howns : h.Owns cap (bs ++ cs)) : h.Owns cap bs where
  block b hb := howns.block b (List.mem_append_left cs hb)
  inUse y hy := howns.inUse y (by rw [List.flatMap_append]; exact List.mem_append_left _ hy)
  distinct := by
    have hdistinct := howns.distinct
    rw [List.flatMap_append, List.nodup_append] at hdistinct
    exact hdistinct.1

theorem congr (howns : h.Owns cap bs) (hsame : ∀ b ∈ bs, h.SameBlock h' b)
    (hmore : ∀ x ∈ bs.flatMap h.blockOf, h'.InUse x) : h'.Owns cap bs where
  block b hb := by
    obtain ⟨hne, a, ha, hcap⟩ := howns.block b hb
    have heq := hsame b hb
    unfold SameBlock at heq
    rw [ha, Option.map_some, Option.map_eq_some_iff] at heq
    obtain ⟨a', ha', heq⟩ := heq
    exact ⟨hne, a', ha', (Prod.mk.inj heq).1.trans hcap⟩
  inUse := by
    rw [blockOf_flatMap hsame]
    exact hmore
  distinct := by
    rw [blockOf_flatMap hsame]
    exact howns.distinct

end ArenaHeap.Owns

/-! ## Requests -/

theorem arenaAlloc_zero (hsize : size = 0) : arenaAlloc al h arena size = .ok (0, arena, h) := by
  unfold arenaAlloc
  rw [if_pos (.inl hsize)]

theorem arenaAlloc_fits (ha : h.arenas arena = some a) (harena : arena ≠ 0) (hsize : size ≠ 0)
    (hfits : ¬ a.capacity < (a.size + size) % 2 ^ 64) : arenaAlloc al h arena size =
      .ok (a.memory + BitVec.ofNat 64 a.size, arena, h.store arena { a with size := (a.size + size) % 2 ^ 64 }) := by
  unfold arenaAlloc
  rw [if_neg (not_or.2 ⟨hsize, harena⟩), Except.bind_of_ok (ArenaHeap.load_ok.2 ha), if_neg hfits]
  dsimp only
  rw [Except.bind_of_ok rfl, Except.bind_of_ok (ArenaHeap.load_ok.2 ha)]
  rfl

/-- What a growing request leaves: a new block behind the one it was given. -/
structure GrownTo (h h' : ArenaHeap) (arena arena' memory : Addr) (a : Arena) (size : Nat) : Prop where
  room : NewStorage h memory a.capacity
  block : NewStorage (h.reserve memory a.capacity) arena' arenaSize
  new : h'.arenas arena' = some ⟨size % 2 ^ 64, a.capacity, memory, arena, 0⟩
  linked : h'.arenas arena = some { a with next := arena' }
  others : ∀ b, b ≠ arena → b ≠ arena' → h'.arenas b = h.arenas b
  chunks : h'.chunks = ⟨arena', arenaSize⟩ :: ⟨memory, a.capacity⟩ :: h.chunks

theorem arenaAlloc_grows (ha : h.arenas arena = some a) (harena : arena ≠ 0) (hsize : size ≠ 0) (huse : h.InUse arena)
    (hover : a.capacity < (a.size + size) % 2 ^ 64) (halloc : arenaAlloc al h arena size = .ok (ptr, arena', h')) :
    arena' ≠ arena ∧ ∃ memory, GrownTo h h' arena arena' memory a size := by
  unfold arenaAlloc at halloc
  rw [if_neg (not_or.2 ⟨hsize, harena⟩), Except.bind_of_ok (ArenaHeap.load_ok.2 ha), if_pos hover] at halloc
  obtain ⟨⟨next, h₁⟩, hgrow, halloc⟩ := Except.bind_ok halloc
  obtain ⟨b, hb, halloc⟩ := Except.bind_ok halloc
  cases halloc
  obtain ⟨a', ha', hgrow⟩ := Except.bind_ok hgrow
  cases (ArenaHeap.load_ok.1 ha').symm.trans ha
  obtain ⟨⟨next', h₂⟩, hinit, hgrow⟩ := Except.bind_ok hgrow
  obtain ⟨c, hc, hgrow⟩ := Except.bind_ok hgrow
  obtain ⟨n, hn, hgrow⟩ := Except.bind_ok hgrow
  cases hgrow
  obtain ⟨⟨memory, h₃⟩, hmemory, hinit⟩ := Except.bind_ok hinit
  obtain ⟨⟨ptr', h₄⟩, hptr, hinit⟩ := Except.bind_ok hinit
  obtain ⟨hnew, rfl⟩ := mallocChunk_ok hmemory
  obtain ⟨hblock, rfl⟩ := mallocChunk_ok hptr
  cases hinit
  have hne : arena' ≠ arena := by
    refine hblock.ne (by decide) ?_
    obtain ⟨m, hm, hchunk⟩ := huse
    exact ⟨m, hm, List.mem_cons_of_mem _ hchunk⟩
  have hne' : arena ≠ arena' := hne.symm
  -- what is loaded on the way was stored before
  have hc := ArenaHeap.load_ok.1 hc
  rw [ArenaHeap.store_of_ne _ _ hne'] at hc
  cases hc.symm.trans ha
  have hn := ArenaHeap.load_ok.1 hn
  rw [ArenaHeap.store_of_ne _ _ hne, ArenaHeap.store_self] at hn
  cases hn
  have hb := ArenaHeap.load_ok.1 hb
  rw [ArenaHeap.store_self] at hb
  cases hb
  refine ⟨hne, memory, hnew, hblock, ?_, ?_, fun b hb hb' => ?_, rfl⟩
  · rw [ArenaHeap.store_self, Nat.zero_add]
  · rw [ArenaHeap.store_of_ne _ _ hne', ArenaHeap.store_of_ne _ _ hne', ArenaHeap.store_self]
  · rw [ArenaHeap.store_of_ne _ _ hb', ArenaHeap.store_of_ne _ _ hb', ArenaHeap.store_of_ne _ _ hb,
      ArenaHeap.store_of_ne _ _ hb']
    rfl

namespace GrownTo

theorem inUse (hgrown : GrownTo h h' arena arena' memory a size) (hx : h.InUse x) : h'.InUse x := by
  obtain ⟨n, hn, hchunk⟩ := hx
  exact ⟨n, hn, hgrown.chunks ▸ List.mem_cons_of_mem _ (List.mem_cons_of_mem _ hchunk)⟩

/-- The new block is none that storage was in use for. -/
theorem fresh (hgrown : GrownTo h h' arena arena' memory a size) (hx : h.InUse x) : arena' ≠ x := by
  refine hgrown.block.ne (by decide) ?_
  obtain ⟨n, hn, hchunk⟩ := hx
  exact ⟨n, hn, List.mem_cons_of_mem _ hchunk⟩

theorem same (hgrown : GrownTo h h' arena arena' memory a size) (ha : h.arenas arena = some a) (hx : h.InUse x) :
    h.SameBlock h' x := by
  unfold ArenaHeap.SameBlock
  by_cases hxa : x = arena
  · rw [hxa, hgrown.linked, ha]
    rfl
  · rw [hgrown.others x hxa (hgrown.fresh hx).symm]

theorem owns (hgrown : GrownTo h h' arena arena' memory a size) (ha : h.arenas arena = some a) (hcap : 0 < a.capacity)
    (howns : h.Owns a.capacity bs) : h'.Owns a.capacity (bs ++ [arena']) := by
  have hsame : ∀ b ∈ bs, h.SameBlock h' b := fun b hb => hgrown.same ha (howns.inUse_block hb)
  have hnew : h'.blockOf arena' = [memory, arena'] := ArenaHeap.blockOf_eq hgrown.new
  have hstorage : (bs ++ [arena']).flatMap h'.blockOf = bs.flatMap h.blockOf ++ [memory, arena'] := by
    rw [List.flatMap_append, blockOf_flatMap hsame, List.flatMap_singleton, hnew]
  have hold := howns.congr hsame fun x hx => hgrown.inUse (howns.inUse x hx)
  constructor
  · intro b hb
    rcases List.mem_append.mp hb with hb | hb
    · exact hold.block b hb
    · rw [List.mem_singleton.mp hb]
      exact ⟨hgrown.block.nonnull, _, hgrown.new, rfl⟩
  · rw [hstorage]
    intro x hx
    rcases List.mem_append.mp hx with hx | hx
    · exact hgrown.inUse (howns.inUse x hx)
    · unfold ArenaHeap.InUse
      rw [hgrown.chunks]
      rcases List.mem_pair.mp hx with rfl | rfl
      · exact ⟨a.capacity, hcap, List.mem_cons_of_mem _ (List.mem_cons_self ..)⟩
      · exact ⟨arenaSize, by decide, List.mem_cons_self ..⟩
  · rw [hstorage, List.nodup_append]
    have hne : arena' ≠ memory := hgrown.block.ne (by decide) ⟨a.capacity, hcap, List.mem_cons_self ..⟩
    refine ⟨howns.distinct, by simp [hne.symm], ?_⟩
    rintro x hx y hy rfl
    rcases List.mem_pair.mp hy with rfl | rfl
    · exact hgrown.room.ne hcap (howns.inUse _ hx) rfl
    · exact hgrown.fresh (howns.inUse _ hx) rfl

end GrownTo

end Storage

/-! ## The list -/

section List

variable {al : Malloc} {s s' : ArenaState} {r : ArenaRequest} {cap used : Nat} {front lost : List Addr} {behind : Option Addr}

/-- The list in the course of a run: the blocks up to the owner's, perhaps one more that a copy has moved on to, and those
that are created and not in it. -/
structure ArenaState.Shape (s : ArenaState) (cap used : Nat) (front : List Addr) (behind : Option Addr) (lost : List Addr) :
    Prop where
  chain : Segment s.heap.links 0 (front ++ s.owner :: behind.toList) 0
  created : (front ++ s.owner :: behind.toList ++ lost).Perm s.created
  owns : s.heap.Owns cap s.created
  current : ∃ a, s.heap.arenas s.owner = some a ∧ a.size = used

namespace ArenaState.Shape

theorem owner_mem (hs : s.Shape cap used front behind lost) : s.owner ∈ s.created :=
  hs.created.mem_iff.mp (by simp)

theorem init {h₀ : ArenaHeap} (hinit : ArenaState.init al h₀ cap = .ok s) (hcap : 0 < cap) : s.Shape cap 0 [] none [] := by
  unfold ArenaState.init at hinit
  obtain ⟨⟨arena, h⟩, harena, hinit⟩ := Except.bind_ok hinit
  cases hinit
  unfold arenaInit at harena
  obtain ⟨⟨memory, h₁⟩, hmemory, harena⟩ := Except.bind_ok harena
  obtain ⟨⟨ptr, h₂⟩, hptr, harena⟩ := Except.bind_ok harena
  obtain ⟨hnew, rfl⟩ := mallocChunk_ok hmemory
  obtain ⟨hblock, rfl⟩ := mallocChunk_ok hptr
  cases harena
  have harena : (((h₀.reserve memory cap).reserve arena arenaSize).store arena ⟨0, cap, memory, 0, 0⟩).arenas arena =
      some ⟨0, cap, memory, 0, 0⟩ := ArenaHeap.store_self ..
  have hne : arena ≠ memory := hblock.ne (by decide) ⟨cap, hcap, List.mem_cons_self ..⟩
  refine ⟨segment_singleton.mpr (ArenaHeap.links_eq harena), .refl _, ⟨?_, ?_, ?_⟩, ⟨_, harena, rfl⟩⟩
  · intro b hb
    rw [List.mem_singleton.mp hb]
    exact ⟨hblock.nonnull, _, harena, rfl⟩
  · rw [List.flatMap_singleton, ArenaHeap.blockOf_eq harena]
    intro x hx
    rcases List.mem_pair.mp hx with rfl | rfl
    · exact ⟨cap, hcap, List.mem_cons_of_mem _ (List.mem_cons_self ..)⟩
    · exact ⟨arenaSize, by decide, List.mem_cons_self ..⟩
  · rw [List.flatMap_singleton, ArenaHeap.blockOf_eq harena]
    simp [hne.symm]

theorem request_zero (hsize : r.size = 0) (hr : s.request al r = .ok s') : s' = s := by
  unfold ArenaState.request at hr
  rw [Except.bind_of_ok (arenaAlloc_zero hsize)] at hr
  cases hr
  cases r.handle <;> simp

/-- A request that fits only takes more of the block. -/
theorem request_fits (hs : s.Shape cap used front behind lost) (hsize : r.size ≠ 0)
    (hfits : ¬ cap < (used + r.size) % 2 ^ 64) (hr : s.request al r = .ok s') :
    s'.Shape cap ((used + r.size) % 2 ^ 64) front behind lost := by
  obtain ⟨harena, a, ha, hcap⟩ := hs.owns.block _ hs.owner_mem
  obtain ⟨_, ha', rfl⟩ := hs.current
  cases ha.symm.trans ha'
  rw [← hcap] at hfits
  unfold ArenaState.request at hr
  rw [Except.bind_of_ok (arenaAlloc_fits ha harena hsize hfits)] at hr
  have howner : s' = ⟨s.heap.store s.owner { a with size := (a.size + r.size) % 2 ^ 64 }, s.owner, s.created⟩ := by
    cases hr
    cases r.handle <;> simp
  subst howner
  have hlinks (b : Addr) : (s.heap.store s.owner { a with size := (a.size + r.size) % 2 ^ 64 }).links b = s.heap.links b :=
    ArenaHeap.store_size_map _ (fun _ _ => rfl) ha b
  have hsame (b : Addr) : s.heap.SameBlock (s.heap.store s.owner { a with size := (a.size + r.size) % 2 ^ 64 }) b :=
    ArenaHeap.store_size_map _ (fun _ _ => rfl) ha b
  exact ⟨hs.chain.congr fun b _ => hlinks b, hs.created, hs.owns.congr (fun b _ => hsame b) hs.owns.inUse,
    ⟨_, ArenaHeap.store_self .., rfl⟩⟩

theorem owner_notMem (hs : s.Shape cap used front behind lost) : s.owner ∉ front := by
  have hnodup := (hs.created.nodup_iff).mpr hs.owns.nodup
  rw [List.append_assoc, List.cons_append, List.nodup_middle, List.nodup_cons] at hnodup
  exact fun hmem => hnodup.1 (List.mem_append_left _ hmem)

/-- The new block is linked behind the owner's, whatever was there. -/
theorem relinked {h' : ArenaHeap} {n memory : Addr} {a : Arena} {size : Nat} (hs : s.Shape cap used front behind lost)
    (ha : s.heap.arenas s.owner = some a) (hgrown : GrownTo s.heap h' s.owner n memory a size) :
    Segment h'.links 0 (front ++ [s.owner, n]) 0 := by
  obtain ⟨hfront, hlinks, -⟩ := segment_append.mp hs.chain
  refine segment_append.mpr ⟨hfront.congr fun b hb => ?_, ?_, segment_singleton.mpr (ArenaHeap.links_eq hgrown.new)⟩
  · have hmem : b ∈ s.created := hs.created.mem_iff.mp (by simp [hb])
    have hne : b ≠ s.owner := fun heq => hs.owner_notMem (heq ▸ hb)
    unfold ArenaHeap.links
    rw [hgrown.others b hne (hgrown.fresh (hs.owns.inUse_block hmem)).symm]
  · rw [ArenaHeap.links_eq ha] at hlinks
    rw [ArenaHeap.links_eq hgrown.linked]
    exact congrArg some (Prod.ext (Prod.mk.inj (Option.some.inj hlinks)).1 rfl)

/-- After a request that does not fit, the block that was behind the owner's is lost. The owner's handle holds the new block
if the request was made through it. -/
theorem request_grows (hs : s.Shape cap used front behind lost) (hcap : 0 < cap) (hsize : r.size ≠ 0)
    (hover : cap < (used + r.size) % 2 ^ 64) (hr : s.request al r = .ok s') :
    match r.handle with
    | .owner => s'.Shape cap (r.size % 2 ^ 64) (front ++ [s.owner]) none (behind.toList ++ lost)
    | .byValue => ∃ n, s'.Shape cap used front (some n) (behind.toList ++ lost) := by
  obtain ⟨harena, a, ha, rfl⟩ := hs.owns.block _ hs.owner_mem
  obtain ⟨_, ha', rfl⟩ := hs.current
  cases ha.symm.trans ha'
  unfold ArenaState.request at hr
  obtain ⟨⟨ptr, n, h'⟩, halloc, hr⟩ := Except.bind_ok hr
  obtain ⟨hne, memory, hgrown⟩ := arenaAlloc_grows ha harena hsize (hs.owns.inUse_block hs.owner_mem) hover halloc
  have hchain := hs.relinked ha hgrown
  have howns := hgrown.owns ha hcap hs.owns
  have hperm : (front ++ [s.owner, n] ++ (behind.toList ++ lost)).Perm (s.created ++ [n]) := by
    refine List.Perm.trans ?_ (hs.created.append_right [n])
    simp only [List.append_assoc, List.cons_append, List.nil_append]
    refine (List.Perm.refl _).append (.cons _ ?_)
    rw [← List.append_assoc]
    exact (List.perm_append_singleton n _).symm
  cases hhandle : r.handle with
  | owner =>
    have hs' : s' = ⟨h', n, s.created ++ [n]⟩ := by
      cases hr
      simp [hne, hhandle]
    subst hs'
    have happend : front ++ [s.owner, n] = front ++ [s.owner] ++ [n] := by simp
    rw [happend] at hchain hperm
    exact ⟨hchain, hperm, howns, ⟨_, hgrown.new, rfl⟩⟩
  | byValue =>
    have hs' : s' = ⟨h', s.owner, s.created ++ [n]⟩ := by
      cases hr
      simp [hne, hhandle]
    subst hs'
    exact ⟨n, hchain, hperm, howns, ⟨_, hgrown.linked, rfl⟩⟩

/-- A run keeps the list, and it loses no block if and only if the requests keep the links. -/
theorem requests (hcap : 0 < cap) {rs : List ArenaRequest} (hs : s.Shape cap used front behind lost)
    (hrun : s.requests al rs = .ok s') : ∃ used' front' behind' lost', s'.Shape cap used' front' behind' lost' ∧
      (lost' = [] ↔ lost = [] ∧ keepsLinks cap used behind.isSome rs = true) := by
  induction rs generalizing s used front behind lost with
  | nil =>
    cases hrun
    exact ⟨used, front, behind, lost, hs, by simp [keepsLinks]⟩
  | cons r rs ih =>
    unfold ArenaState.requests at hrun
    rw [List.foldlM_cons] at hrun
    obtain ⟨s₁, hr, hrun⟩ := Except.bind_ok hrun
    unfold keepsLinks
    by_cases hsize : r.size = 0
    · rw [if_pos hsize]
      exact ih (request_zero hsize hr ▸ hs) hrun
    by_cases hover : cap < (used + r.size) % 2 ^ 64
    · rw [if_neg hsize, if_pos hover]
      have hgrown := hs.request_grows hcap hsize hover hr
      cases hhandle : r.handle with
      | owner =>
        rw [hhandle] at hgrown
        obtain ⟨used', front', behind', lost', hs', hiff⟩ := ih hgrown hrun
        refine ⟨used', front', behind', lost', hs', ?_⟩
        rw [hiff]
        cases behind <;> simp
      | byValue =>
        rw [hhandle] at hgrown
        obtain ⟨n, hgrown⟩ := hgrown
        obtain ⟨used', front', behind', lost', hs', hiff⟩ := ih hgrown hrun
        refine ⟨used', front', behind', lost', hs', ?_⟩
        rw [hiff]
        cases behind <;> simp
    · rw [if_neg hsize, if_neg hover]
      exact ih (hs.request_fits hsize hover hr) hrun

end ArenaState.Shape

/-! ## Destruction of a list -/

section Destroy

variable {h : ArenaHeap} {p a x : Addr} {bs xs pre post : List Addr} {fuel : Nat}

/-- The links and the storage of a block of a list. -/
theorem ArenaHeap.Owns.load (howns : h.Owns cap bs) (hx : x ∈ bs) {q : Addr} (hlinks : h.links x = some (p, q)) :
    ∃ a, h.load x = .ok a ∧ a.prev = p ∧ a.next = q ∧ h.blockOf x = [a.memory, x] := by
  obtain ⟨-, a, ha, -⟩ := howns.block x hx
  rw [links_eq ha] at hlinks
  cases hlinks
  exact ⟨a, ArenaHeap.load_ok.2 ha, rfl, rfl, blockOf_eq ha⟩

/-- From any block of a list the first loop goes back to its head. -/
theorem arenaHead_segment (howns : h.Owns cap (pre ++ a :: post)) (hseg : Segment h.links 0 (pre ++ a :: post) 0)
    (hfuel : pre.length < fuel) : arenaHead fuel h a = .ok ((pre ++ a :: post).headD 0) := by
  induction pre using List.reverseRecOn generalizing a post fuel with
  | nil =>
    obtain ⟨fuel, rfl⟩ := Nat.exists_eq_succ_of_ne_zero (Nat.ne_zero_of_lt hfuel)
    obtain ⟨b, hload, hprev, -⟩ := howns.load (x := a) (by simp) hseg.1
    rw [arenaHead, hload]
    show (if b.prev ≠ 0 then _ else _) = _
    rw [hprev, if_neg (not_not.mpr rfl)]
    rfl
  | append_singleton pre y ih =>
    obtain ⟨fuel, rfl⟩ := Nat.exists_eq_succ_of_ne_zero (Nat.ne_zero_of_lt hfuel)
    obtain ⟨-, hlinks, -⟩ := segment_append.mp hseg
    rw [List.getLastD_concat] at hlinks
    obtain ⟨b, hload, hprev, -⟩ := howns.load (by simp) hlinks
    have hne : y ≠ 0 := (howns.block y (by simp)).1
    rw [List.append_assoc, List.singleton_append] at howns hseg ⊢
    rw [List.length_append, List.length_singleton] at hfuel
    rw [arenaHead, hload]
    show (if b.prev ≠ 0 then _ else _) = _
    rw [hprev, if_pos hne]
    exact ih howns hseg (by omega)

theorem ArenaHeap.free_ok (huse : h.InUse x) : h.free x = .ok (h.drop x) := by
  obtain ⟨n, -, hchunk⟩ := huse
  have hany : h.chunks.any (·.start = x) = true := List.any_eq_true.mpr ⟨_, hchunk, by simp⟩
  exact if_pos hany

theorem ArenaHeap.drop_arenas {y : Addr} (hne : y ≠ x) : (h.drop x).arenas y = h.arenas y := Function.update_of_ne hne ..

/-- Storage that begins elsewhere stays in use. -/
theorem ArenaHeap.InUse.drop {y : Addr} (huse : h.InUse y) (hne : y ≠ x) : (h.drop x).InUse y := by
  obtain ⟨n, hn, hchunk⟩ := huse
  exact ⟨n, hn, List.mem_filter.mpr ⟨hchunk, by simpa using hne⟩⟩

/-- Once the first block is freed, the list goes on behind it. -/
theorem ArenaHeap.Owns.drop_first {b : Arena} (howns : h.Owns cap (x :: xs)) (hseg : Segment h.links p (x :: xs) 0)
    (hblock : h.blockOf x = [b.memory, x]) : ((h.drop b.memory).drop x).Owns cap xs ∧
      Segment ((h.drop b.memory).drop x).links x xs 0 ∧
      xs.flatMap ((h.drop b.memory).drop x).blockOf = xs.flatMap h.blockOf := by
  have hdistinct := howns.distinct
  rw [List.flatMap_cons, hblock, List.nodup_append] at hdistinct
  obtain ⟨-, -, happart⟩ := hdistinct
  have hsame : ∀ y ∈ xs, ((h.drop b.memory).drop x).arenas y = h.arenas y := by
    intro y hy
    obtain ⟨-, c, hc, -⟩ := howns.block y (List.mem_cons_of_mem x hy)
    have hyblock := (ArenaHeap.Owns.mem_blockOf hy hc).2
    rw [drop_arenas (happart x (by simp) y hyblock).symm, drop_arenas (happart b.memory (by simp) y hyblock).symm]
  have hblocks : ∀ y ∈ xs, h.SameBlock ((h.drop b.memory).drop x) y := by
    intro y hy
    unfold ArenaHeap.SameBlock
    rw [hsame y hy]
  refine ⟨howns.tail.congr hblocks fun z hz => ?_, hseg.2.congr fun y hy => ?_, blockOf_flatMap hblocks⟩
  · have huse := howns.inUse z (by rw [List.flatMap_cons]; exact List.mem_append_right _ hz)
    exact (huse.drop (happart b.memory (by simp) z hz).symm).drop (happart x (by simp) z hz).symm
  · unfold ArenaHeap.links
    rw [hsame y hy]

/-- From the head on, the second loop frees the storage of each block. -/
theorem arenaFreeFrom_segment (howns : h.Owns cap xs) (hseg : Segment h.links p xs 0) :
    ∃ h', ∀ fuel, xs.length < fuel → arenaFreeFrom fuel h (xs.headD 0) = .ok (h', xs.flatMap h.blockOf) := by
  induction xs generalizing h p with
  | nil =>
    refine ⟨h, fun fuel hfuel => ?_⟩
    obtain ⟨fuel, rfl⟩ := Nat.exists_eq_succ_of_ne_zero (Nat.ne_zero_of_lt hfuel)
    rfl
  | cons x xs ih =>
    obtain ⟨b, hload, -, hnext, hblock⟩ := howns.load (List.mem_cons_self ..) hseg.1
    obtain ⟨howns', hseg', hflat⟩ := howns.drop_first hseg hblock
    obtain ⟨h', hrest⟩ := ih howns' hseg'
    rw [hflat] at hrest
    have hx0 : x ≠ 0 := (howns.block x (List.mem_cons_self ..)).1
    have hne : x ≠ b.memory := by
      have hpair := howns.distinct
      rw [List.flatMap_cons, hblock, List.nodup_append] at hpair
      rintro rfl
      simp at hpair
    have hmemory := ArenaHeap.free_ok (howns.inUse b.memory (by simp [hblock]))
    have hself := ArenaHeap.free_ok ((howns.inUse x (by simp [hblock])).drop hne)
    refine ⟨h', fun fuel hfuel => ?_⟩
    obtain ⟨fuel, rfl⟩ := Nat.exists_eq_succ_of_ne_zero (Nat.ne_zero_of_lt hfuel)
    rw [List.length_cons] at hfuel
    show arenaFreeFrom (fuel + 1) h x = _
    rw [arenaFreeFrom, if_pos hx0, hload]
    show ((h.free b.memory).mapError Stop.fault >>= _) = _
    rw [hmemory]
    show (((h.drop b.memory).free x).mapError Stop.fault >>= _) = _
    rw [hself]
    show (arenaFreeFrom fuel _ b.next >>= _) = _
    rw [hnext, hrest fuel (Nat.lt_of_succ_lt_succ hfuel), List.flatMap_cons, hblock]
    rfl

/-- `arena_destroy` frees the storage of each block of the list that it is called in. -/
theorem arenaDestroy_list (howns : h.Owns cap bs) (hseg : Segment h.links 0 bs 0) (ha : a ∈ bs) :
    ∃ h', ∀ fuel, bs.length < fuel → arenaDestroy fuel h a = .ok (h', bs.flatMap h.blockOf) := by
  obtain ⟨h', hfree⟩ := arenaFreeFrom_segment howns hseg
  obtain ⟨pre, post, rfl⟩ := List.append_of_mem ha
  refine ⟨h', fun fuel hfuel => ?_⟩
  have hhead : arenaHead fuel h a = _ := arenaHead_segment howns hseg (by
    rw [List.length_append] at hfuel
    omega)
  unfold arenaDestroy
  rw [hhead]
  exact hfree fuel hfuel

theorem blockOf_length (howns : h.Owns cap bs) : (bs.flatMap h.blockOf).length = 2 * bs.length := by
  induction bs with
  | nil => rfl
  | cons x bs ih =>
    obtain ⟨-, b, hb, -⟩ := howns.block x (List.mem_cons_self ..)
    rw [List.flatMap_cons, ArenaHeap.blockOf_eq hb, List.length_append, ih howns.tail, List.length_cons]
    simp only [List.length_cons, List.length_nil]
    omega

end Destroy

/-! ## The promise -/

namespace ArenaState.Shape

theorem list_length (hs : s.Shape cap used front behind lost) :
    (front ++ s.owner :: behind.toList).length + lost.length = s.created.length := by
  rw [← hs.created.length_eq]
  exact List.length_append.symm

theorem destroys (hs : s.Shape cap used front behind lost) : ∃ h',
    (∀ fuel, s.created.length < fuel → arenaDestroy fuel s.heap s.owner =
      .ok (h', (front ++ s.owner :: behind.toList).flatMap s.heap.blockOf)) ∧
    ((front ++ s.owner :: behind.toList).flatMap s.heap.blockOf).length = 2 * (front ++ s.owner :: behind.toList).length := by
  have howns := (hs.owns.perm hs.created.symm).append_left
  obtain ⟨h', hdestroy⟩ := arenaDestroy_list howns hs.chain (List.mem_append_right front (List.mem_cons_self ..))
  have hlen := hs.list_length
  exact ⟨h', fun fuel hfuel => hdestroy fuel (by omega), blockOf_length howns⟩

/-- The blocks are in one list if and only if none is lost. -/
theorem linked_iff (hs : s.Shape cap used front behind lost) : (∃ bs, s.Linked bs) ↔ lost = [] := by
  constructor
  · rintro ⟨bs, hall, howner, hchain⟩
    -- both lists are the one that is freed from the owner's block on
    obtain ⟨h₁, hfreed, hlen⟩ := hs.destroys
    have howns := hs.owns.perm hall.symm
    obtain ⟨h₂, hfreed'⟩ := arenaDestroy_list howns hchain howner
    have hall := hall.length_eq
    have heq := (hfreed' (s.created.length + 1) (by omega)).symm.trans (hfreed _ (Nat.lt_succ_self _))
    have hflat := congrArg List.length (Prod.mk.inj (Except.ok.inj heq)).2
    rw [blockOf_length howns, hlen] at hflat
    have hsum := hs.list_length
    exact List.eq_nil_of_length_eq_zero (by omega)
  · rintro rfl
    have hall := hs.created
    rw [List.append_nil] at hall
    exact ⟨_, hall, by simp, hs.chain⟩

theorem freesOnce_iff (hs : s.Shape cap used front behind lost) : s.FreesOnce ↔ lost = [] := by
  obtain ⟨h', hdestroy, hlen⟩ := hs.destroys
  constructor
  · rintro ⟨h₁, freed, hfreed, hperm⟩
    have heq := (hfreed _ (Nat.lt_succ_self _)).symm.trans (hdestroy _ (Nat.lt_succ_self _))
    cases heq
    have hflat := hperm.length_eq
    rw [hlen, blockOf_length hs.owns] at hflat
    have hsum := hs.list_length
    exact List.eq_nil_of_length_eq_zero (by omega)
  · rintro rfl
    have hall := hs.created
    rw [List.append_nil] at hall
    exact ⟨h', _, hdestroy, hall.flatMap_right _⟩

end ArenaState.Shape

end List

/-- For an arena of a positive capacity and any requests through the owner's handle and copies of it: all blocks are linked in
one list and `arena_destroy` frees each of them once, if and only if no request overflows a block that a request
through a copy has overflowed before. -/
theorem arena_linked_iff {al : Malloc} {h₀ : ArenaHeap} {capacity : Nat} {s s' : ArenaState} {rs : List ArenaRequest}
    (hcap : 0 < capacity) (hinit : ArenaState.init al h₀ capacity = .ok s) (hrun : s.requests al rs = .ok s') :
    (∃ bs, s'.Linked bs) ∧ s'.FreesOnce ↔ keepsLinks capacity 0 false rs = true := by
  obtain ⟨used, front, behind, lost, hs, hiff⟩ := (ArenaState.Shape.init hinit hcap).requests hcap hrun
  rw [hs.linked_iff, hs.freesOnce_iff, and_self, hiff]
  simp

/-- The capacity of `ffi_arena`. -/
def ffiArenaCapacity : Nat := 4096

/-- Two functions, the second one of 600 arguments. -/
theorem arena_linked_ffi : ∃ s s', ArenaState.init .behind .empty ffiArenaCapacity = .ok s ∧
    tciMetaprogramToFfi .behind 40 s [2, 600] = .ok s' ∧ s'.created.length = 2 ∧ (∃ bs, s'.Linked bs) ∧ s'.FreesOnce := by
  obtain ⟨s, s', hinit, hrun, hcreated⟩ : ∃ s s', ArenaState.init .behind .empty ffiArenaCapacity = .ok s ∧
      s.requests .behind (ffiRequests 40 [2, 600]) = .ok s' ∧ s'.created.length = 2 := ⟨_, _, rfl, rfl, rfl⟩
  have hlinked := (arena_linked_iff (by decide) hinit hrun).2 (by decide)
  exact ⟨s, s', hinit, (tciMetaprogramToFfi_eq ..).trans hrun, hcreated, hlinked⟩

/-- Two functions of 600 arguments: the second overflows the same block, and the new block of the first is lost. -/
theorem ffi_block_lost : ∃ s s', ArenaState.init .behind .empty ffiArenaCapacity = .ok s ∧
    tciMetaprogramToFfi .behind 40 s [600, 600] = .ok s' ∧ s'.created.length = 3 ∧
    (¬ ∃ bs, s'.Linked bs) ∧ ¬ s'.FreesOnce := by
  obtain ⟨s, s', hinit, hrun, hcreated⟩ : ∃ s s', ArenaState.init .behind .empty ffiArenaCapacity = .ok s ∧
      s.requests .behind (ffiRequests 40 [600, 600]) = .ok s' ∧ s'.created.length = 3 := ⟨_, _, rfl, rfl, rfl⟩
  obtain ⟨used, front, behind, lost, hs, hiff⟩ :=
    (ArenaState.Shape.init hinit (by decide)).requests (by decide) hrun
  have hlost : lost ≠ [] := fun hnil => absurd (hiff.1 hnil).2 (by decide)
  exact ⟨s, s', hinit, (tciMetaprogramToFfi_eq ..).trans hrun, hcreated, fun h => hlost (hs.linked_iff.1 h),
    fun h => hlost (hs.freesOnce_iff.1 h)⟩

end TileVm
