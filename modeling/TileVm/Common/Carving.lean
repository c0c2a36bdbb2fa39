/-
The regions that an arena hands out. As long as no request exceeds the capacity that the arena was
made with, each region lies in its block and apart from those before it; one that does exceed it is
carved out of a block that cannot hold it.
-/
import TileVm.Common.Arena

namespace TileVm

variable {al : Malloc} {h h' : ArenaHeap} {arena arena' ptr : Addr} {size cap : Nat}

/-! ## One call -/

/-- `memory` is new storage of `size` bytes. -/
structure NewStorage (h : ArenaHeap) (memory : Addr) (size : Nat) : Prop where
  nonnull : memory ≠ 0
  bounded : size < 2 ^ 63
  inMemory : memory.toNat + size ≤ 2 ^ 64
  apart : ∀ c ∈ h.chunks, Span.Apart ⟨memory, size⟩ c

/-- `h'` has the storage of `h`, and perhaps more. -/
def ArenaHeap.Extends (h h' : ArenaHeap) : Prop := ∀ c ∈ h.chunks, c ∈ h'.chunks

theorem mallocChunk_ok (hmalloc : mallocChunk al h size = .ok (ptr, h')) : NewStorage h ptr size ∧ h' = h.reserve ptr size := by
  unfold mallocChunk at hmalloc
  split at hmalloc
  · rename_i a ha
    cases hmalloc
    exact ⟨⟨al.nonnull _ _ _ ha, al.bounded _ _ _ ha, al.inMemory _ _ _ ha, al.apart _ _ _ ha⟩, rfl⟩
  · cases hmalloc

/-- A new arena is empty, over new storage of its capacity. -/
theorem arenaInit_ok (hinit : arenaInit al h cap = .ok (arena, h')) :
    arena ≠ 0 ∧ ∃ memory, h'.arenas arena = some ⟨0, cap, memory, 0, 0⟩ ∧ NewStorage h memory cap ∧
      ⟨memory, cap⟩ ∈ h'.chunks ∧ h.Extends h' := by
  obtain ⟨⟨memory, h₁⟩, hmemory, hinit⟩ := Except.bind_ok hinit
  obtain ⟨⟨ptr, h₂⟩, hptr, hinit⟩ := Except.bind_ok hinit
  obtain ⟨hnew, rfl⟩ := mallocChunk_ok hmemory
  obtain ⟨hblock, rfl⟩ := mallocChunk_ok hptr
  cases hinit
  refine ⟨hblock.nonnull, memory, by simp, hnew, ?_, fun c hc => ?_⟩
  · exact List.mem_cons_of_mem _ (List.mem_cons_self ..)
  · exact List.mem_cons_of_mem _ (List.mem_cons_of_mem _ hc)

/-- A block that the list grows by is empty, and has the capacity of the one before it. -/
theorem arenaGrow_ok {a : Arena} (ha : h.arenas arena = some a) (hgrow : arenaGrow al h arena = .ok (arena', h')) :
    arena' ≠ 0 ∧ ∃ n, h'.arenas arena' = some n ∧ n.size = 0 ∧ n.capacity = a.capacity ∧
      NewStorage h n.memory n.capacity ∧ ⟨n.memory, n.capacity⟩ ∈ h'.chunks ∧ h.Extends h' := by
  obtain ⟨a', ha', hgrow⟩ := Except.bind_ok hgrow
  cases (ArenaHeap.load_ok.1 ha').symm.trans ha
  obtain ⟨⟨next, h₁⟩, hinit, hgrow⟩ := Except.bind_ok hgrow
  obtain ⟨b, hb, hgrow⟩ := Except.bind_ok hgrow
  obtain ⟨n, hn, hgrow⟩ := Except.bind_ok hgrow
  cases hgrow
  obtain ⟨hnull, memory, hnext, hnew, hchunk, hmore⟩ := arenaInit_ok hinit
  have hn := ArenaHeap.load_ok.1 hn
  by_cases hself : arena' = arena
  · -- the block links to itself only where `malloc` has returned storage in use
    subst hself
    rw [ArenaHeap.store_self] at hn
    cases hn
    cases (ArenaHeap.load_ok.1 hb).symm.trans hnext
    exact ⟨hnull, _, ArenaHeap.store_self .., rfl, rfl, hnew, hchunk, hmore⟩
  · rw [ArenaHeap.store_of_ne _ _ hself, hnext] at hn
    cases hn
    exact ⟨hnull, _, ArenaHeap.store_self .., rfl, rfl, hnew, hchunk, hmore⟩

/-- The block that a request is carved from: the current one, where it fits, or a new one. -/
inductive CarvedFrom (h h' : ArenaHeap) (arena arena' : Addr) (a b : Arena) (size : Nat) : Prop
  | current (fits : ¬ a.capacity < (a.size + size) % 2 ^ 64) (same : arena' = arena) (block : b = a) (chunks : h'.chunks = h.chunks)
  | grown (empty : b.size = 0) (capacity : b.capacity = a.capacity) (new : NewStorage h b.memory b.capacity)
      (chunk : ⟨b.memory, b.capacity⟩ ∈ h'.chunks) (more : h.Extends h')

theorem arenaAlloc_ok {a : Arena} (ha : h.arenas arena = some a) (harena : arena ≠ 0) (hsize : 0 < size)
    (halloc : arenaAlloc al h arena size = .ok (ptr, arena', h')) :
    arena' ≠ 0 ∧ ∃ b, h'.arenas arena' = some { b with size := (b.size + size) % 2 ^ 64 } ∧
      ptr = b.memory + BitVec.ofNat 64 b.size ∧ CarvedFrom h h' arena arena' a b size := by
  unfold arenaAlloc at halloc
  rw [if_neg (not_or.2 ⟨Nat.ne_of_gt hsize, harena⟩), Except.bind_of_ok (ArenaHeap.load_ok.2 ha)] at halloc
  obtain ⟨⟨arena₁, h₁⟩, hblock, halloc⟩ := Except.bind_ok halloc
  obtain ⟨b, hb, halloc⟩ := Except.bind_ok halloc
  have hb := ArenaHeap.load_ok.1 hb
  cases halloc
  split at hblock
  · obtain ⟨hnull, n, hn, hempty, hcapacity, hnew, hchunk, hmore⟩ := arenaGrow_ok ha hblock
    cases hn.symm.trans hb
    exact ⟨hnull, b, ArenaHeap.store_self .., rfl, .grown hempty hcapacity hnew hchunk hmore⟩
  · rename_i hfits
    cases hblock
    cases ha.symm.trans hb
    exact ⟨harena, a, ArenaHeap.store_self .., rfl, .current hfits rfl rfl rfl⟩

/-! ## Runs -/

/-- The regions returned, newest first, with room for more in the block of `arena`. -/
structure Carved (h : ArenaHeap) (arena : Addr) (cap : Nat) (before : List Taken) (a : Arena) : Prop where
  nonnull : arena ≠ 0
  block : h.arenas arena = some a
  capacity : a.capacity = cap
  used : a.size ≤ cap
  bounded : cap < 2 ^ 63
  inMemory : a.memory.toNat + cap ≤ 2 ^ 64
  chunk : ⟨a.memory, cap⟩ ∈ h.chunks
  stored : ∀ t ∈ before, ∃ c ∈ h.chunks, t.region.Within c
  free : ∀ t ∈ before, t.region.start.toNat + t.region.size ≤ a.memory.toNat + a.size ∨
    a.memory.toNat + cap ≤ t.region.start.toNat

theorem Carved.init (hinit : arenaInit al h cap = .ok (arena, h')) : ∃ a, Carved h' arena cap [] a := by
  obtain ⟨hnull, memory, hblock, hnew, hchunk, -⟩ := arenaInit_ok hinit
  exact ⟨_, hnull, hblock, rfl, Nat.zero_le cap, hnew.bounded, hnew.inMemory, hchunk, nofun, nofun⟩

/-- The region that a request is given, in its block. -/
def Arena.taken (b : Arena) (size : Nat) : Taken := ⟨⟨b.memory + BitVec.ofNat 64 b.size, size⟩, ⟨b.memory, b.capacity⟩⟩

/-- A request that does not exceed the capacity is carved out of the free part of a block. -/
theorem Carved.take {before : List Taken} {a b : Arena} (hc : Carved h arena cap before a) (hpos : 0 < size) (hle : size ≤ cap)
    (hnull : arena' ≠ 0) (hb : h'.arenas arena' = some { b with size := (b.size + size) % 2 ^ 64 })
    (hfrom : CarvedFrom h h' arena arena' a b size) :
    (b.taken size).region.Within (b.taken size).block ∧ (∀ t ∈ before, (b.taken size).region.Apart t.region) ∧
      Carved h' arena' cap (b.taken size :: before) { b with size := (b.size + size) % 2 ^ 64 } := by
  -- wherever the block is, it has room, and the regions returned lie below or behind its free part
  obtain ⟨hcapacity, hroom, hmemory, hchunk, hstored, hfree⟩ : b.capacity = cap ∧ b.size + size ≤ cap ∧
      b.memory.toNat + cap ≤ 2 ^ 64 ∧ ⟨b.memory, cap⟩ ∈ h'.chunks ∧
      (∀ t ∈ before, ∃ c ∈ h'.chunks, t.region.Within c) ∧
      ∀ t ∈ before, t.region.start.toNat + t.region.size ≤ b.memory.toNat + b.size ∨
        b.memory.toNat + cap ≤ t.region.start.toNat := by
    have hbounded := hc.bounded
    have hused := hc.used
    cases hfrom with
    | current fits same block chunks =>
      subst block
      rw [hc.capacity, Nat.mod_eq_of_lt (by omega)] at fits
      rw [chunks]
      exact ⟨hc.capacity, Nat.le_of_not_lt fits, hc.inMemory, hc.chunk, hc.stored, hc.free⟩
    | grown empty capacity new chunk more =>
      have hcap := capacity.trans hc.capacity
      rw [hcap] at new chunk
      refine ⟨hcap, by omega, new.inMemory, chunk, fun t ht => ?_, fun t ht => ?_⟩
      · obtain ⟨c, hmem, hwithin⟩ := hc.stored t ht
        exact ⟨c, more c hmem, hwithin⟩
      · obtain ⟨c, hmem, hwithin⟩ := hc.stored t ht
        obtain hbehind | hbelow := (new.apart c hmem).within hwithin
        · exact .inr hbehind
        · exact .inl (Nat.le_add_right_of_le hbelow)
  have hbounded := hc.bounded
  have hstart : (b.memory + BitVec.ofNat 64 b.size).toNat = b.memory.toNat + b.size := by
    rw [BitVec.toNat_add, BitVec.toNat_ofNat, Nat.mod_eq_of_lt (show b.size < 2 ^ 64 by omega), Nat.mod_eq_of_lt (by omega)]
  have hused : (b.size + size) % 2 ^ 64 = b.size + size := Nat.mod_eq_of_lt (by omega)
  have hinside : (b.taken size).region.Within ⟨b.memory, cap⟩ := by
    constructor
    · show b.memory.toNat ≤ (b.memory + BitVec.ofNat 64 b.size).toNat
      omega
    · show (b.memory + BitVec.ofNat 64 b.size).toNat + size ≤ b.memory.toNat + cap
      omega
  refine ⟨?_, fun t ht => ?_, hnull, hb, hcapacity, ?_, hbounded, hmemory, hchunk, ?_, ?_⟩
  · unfold Arena.taken at hinside ⊢
    rwa [hcapacity]
  · show (b.memory + BitVec.ofNat 64 b.size).toNat + size ≤ _ ∨ _ ≤ (b.memory + BitVec.ofNat 64 b.size).toNat
    have := hfree t ht
    omega
  · rw [hused]
    exact hroom
  · rintro t (_ | ⟨_, ht⟩)
    · exact ⟨_, hchunk, hinside⟩
    · exact hstored t ht
  · rintro t (_ | ⟨_, ht⟩)
    · refine .inl ?_
      show (b.memory + BitVec.ofNat 64 b.size).toNat + size ≤ b.memory.toNat + (b.size + size) % 2 ^ 64
      omega
    · have := hfree t ht
      show t.region.start.toNat + t.region.size ≤ b.memory.toNat + (b.size + size) % 2 ^ 64 ∨
        b.memory.toNat + cap ≤ t.region.start.toNat
      omega

/-- What a turn of the run leaves: the region taken, and the state that the next one starts from. -/
theorem arenaAllocs_cons {sizes : List Nat} {taken : List Taken} {last : Addr} {a : Arena} (ha : h.arenas arena = some a)
    (harena : arena ≠ 0) (hsize : 0 < size) (hrun : arenaAllocs al (size :: sizes) h arena = .ok (taken, last, h')) :
    ∃ (b : Arena) (next : Addr) (h₁ : ArenaHeap) (rest : List Taken), taken = b.taken size :: rest ∧ next ≠ 0 ∧
      h₁.arenas next = some { b with size := (b.size + size) % 2 ^ 64 } ∧ CarvedFrom h h₁ arena next a b size ∧
      arenaAllocs al sizes h₁ next = .ok (rest, last, h') := by
  obtain ⟨⟨ptr, next, h₁⟩, halloc, hrun⟩ := Except.bind_ok hrun
  obtain ⟨a', ha', hrun⟩ := Except.bind_ok hrun
  obtain ⟨⟨rest, last', h₂⟩, hrest, hrun⟩ := Except.bind_ok hrun
  obtain ⟨hnull, b, hb, rfl, hfrom⟩ := arenaAlloc_ok ha harena hsize halloc
  cases (ArenaHeap.load_ok.1 ha').symm.trans hb
  cases hrun
  exact ⟨b, next, h₁, rest, rfl, hnull, hb, hfrom, hrest⟩

/-- Each region that lies in its block is of at most the capacity. -/
theorem sizes_le_of_within {sizes : List Nat} {taken : List Taken} {a : Arena} {last : Addr} (ha : h.arenas arena = some a)
    (harena : arena ≠ 0) (hcap : a.capacity = cap) (hpos : ∀ s ∈ sizes, 0 < s)
    (hrun : arenaAllocs al sizes h arena = .ok (taken, last, h')) (hwithin : ∀ t ∈ taken, t.region.Within t.block) :
    ∀ s ∈ sizes, s ≤ cap := by
  induction sizes generalizing h arena a taken with
  | nil => nofun
  | cons size sizes ih =>
    obtain ⟨b, next, h₁, rest, rfl, hnull, hb, hfrom, hrest⟩ := arenaAllocs_cons ha harena (hpos size (by simp)) hrun
    have hcapacity : b.capacity = cap := by
      cases hfrom with
      | current fits same block chunks => rw [block, hcap]
      | grown empty capacity => rw [capacity, hcap]
    rintro s (_ | ⟨_, hs⟩)
    · have hfirst : (b.taken size).region.Within (b.taken size).block := hwithin _ (List.mem_cons_self ..)
      have hend : (b.taken size).region.start.toNat + size ≤ b.memory.toNat + b.capacity := hfirst.2
      have hbegin : b.memory.toNat ≤ (b.taken size).region.start.toNat := hfirst.1
      omega
    · exact ih hb hnull hcapacity (fun s hs => hpos s (by simp [hs])) hrest (fun t ht => hwithin t (by simp [ht])) s hs

/-- Requests that do not exceed the capacity are given regions in their blocks, apart from each other. -/
theorem Carved.run {sizes : List Nat} {taken before : List Taken} {a : Arena} {last : Addr} (hc : Carved h arena cap before a)
    (hpos : ∀ s ∈ sizes, 0 < s) (hle : ∀ s ∈ sizes, s ≤ cap) (hrun : arenaAllocs al sizes h arena = .ok (taken, last, h')) :
    (∀ t ∈ taken, t.region.Within t.block ∧ ∀ t' ∈ before, t'.region.Apart t.region) ∧
      taken.Pairwise fun t t' => t.region.Apart t'.region := by
  induction sizes generalizing h arena a taken before with
  | nil =>
    cases hrun
    exact ⟨nofun, .nil⟩
  | cons size sizes ih =>
    obtain ⟨b, next, h₁, rest, rfl, hnull, hb, hfrom, hrest⟩ :=
      arenaAllocs_cons hc.block hc.nonnull (hpos size (by simp)) hrun
    obtain ⟨hwithin, hapart, hc'⟩ := hc.take (hpos size (by simp)) (hle size (by simp)) hnull hb hfrom
    obtain ⟨hlater, hpairwise⟩ := ih hc' (fun s hs => hpos s (by simp [hs])) (fun s hs => hle s (by simp [hs])) hrest
    refine ⟨?_, List.pairwise_cons.2 ⟨fun t ht => (hlater t ht).2 _ (List.mem_cons_self ..), hpairwise⟩⟩
    rintro t (_ | ⟨_, ht⟩)
    · exact ⟨hwithin, fun t' ht' => (hapart t' ht').symm⟩
    · exact ⟨(hlater t ht).1, fun t' ht' => (hlater t ht).2 t' (List.mem_cons_of_mem _ ht')⟩

/-- The regions returned for positive requests lie in their blocks, and apart from each other, if and only if no request
exceeds the capacity that the arena was made with. -/
theorem arena_regions_iff (al : Malloc) (h₀ h h' : ArenaHeap) (cap : Nat) (arena last : Addr) (sizes : List Nat)
    (taken : List Taken) (hinit : arenaInit al h₀ cap = .ok (arena, h)) (hpos : ∀ s ∈ sizes, 0 < s)
    (hrun : arenaAllocs al sizes h arena = .ok (taken, last, h')) :
    ((∀ t ∈ taken, t.region.Within t.block) ∧ taken.Pairwise fun t t' => t.region.Apart t'.region) ↔
      ∀ s ∈ sizes, s ≤ cap := by
  obtain ⟨a, hc⟩ := Carved.init hinit
  constructor
  · rintro ⟨hwithin, -⟩
    exact sizes_le_of_within hc.block hc.nonnull hc.capacity hpos hrun hwithin
  · intro hle
    obtain ⟨hall, hpairwise⟩ := hc.run hpos hle hrun
    exact ⟨fun t ht => (hall t ht).1, hpairwise⟩

/-! ## An arena of 1024 bytes -/

/-- The end of the storage in use, above the first page. -/
def chunksEnd (chunks : List Span) : Nat := chunks.foldr (fun c e => max (c.start.toNat + c.size) e) 4096

theorem le_chunksEnd {chunks : List Span} {c : Span} (hc : c ∈ chunks) : c.start.toNat + c.size ≤ chunksEnd chunks := by
  induction chunks with
  | nil => cases hc
  | cons d chunks ih =>
    rcases List.mem_cons.1 hc with rfl | hc
    · exact Nat.le_max_left ..
    · exact Nat.le_trans (ih hc) (Nat.le_max_right ..)

theorem chunksEnd_pos (chunks : List Span) : 0 < chunksEnd chunks := by
  induction chunks with
  | nil => decide
  | cons c chunks ih => exact Nat.lt_of_lt_of_le ih (Nat.le_max_right ..)

/-- The allocator that puts new storage behind the storage in use, in the lower half of memory. -/
def Malloc.behind : Malloc where
  malloc chunks n := if chunksEnd chunks < 2 ^ 63 ∧ n < 2 ^ 63 then some (BitVec.ofNat 64 (chunksEnd chunks)) else none
  bounded chunks n a h := by
    rw [Option.ite_none_right_eq_some] at h
    exact h.1.2
  nonnull chunks n a h := by
    rw [Option.ite_none_right_eq_some, Option.some.injEq] at h
    obtain ⟨⟨hend, -⟩, rfl⟩ := h
    have := chunksEnd_pos chunks
    intro hzero
    have hnat := congrArg BitVec.toNat hzero
    rw [BitVec.toNat_ofNat, Nat.mod_eq_of_lt (by omega)] at hnat
    exact Nat.ne_of_gt this hnat
  inMemory chunks n a h := by
    rw [Option.ite_none_right_eq_some, Option.some.injEq] at h
    obtain ⟨⟨hend, hn⟩, rfl⟩ := h
    rw [BitVec.toNat_ofNat, Nat.mod_eq_of_lt (by omega)]
    omega
  apart chunks n a h := by
    rw [Option.ite_none_right_eq_some, Option.some.injEq] at h
    obtain ⟨⟨hend, -⟩, rfl⟩ := h
    intro c hc
    refine .inr ?_
    show _ ≤ (BitVec.ofNat 64 (chunksEnd chunks)).toNat
    rw [BitVec.toNat_ofNat, Nat.mod_eq_of_lt (by omega)]
    exact le_chunksEnd hc

def ArenaHeap.empty : ArenaHeap := ⟨fun _ => none, []⟩

/-- A request of 64 bytes, and one of 1000, which does not fit behind it. -/
theorem arena_regions_grown : ∃ (h h' : ArenaHeap) (arena last : Addr) (taken : List Taken),
    arenaInit .behind .empty 1024 = .ok (arena, h) ∧ arenaAllocs .behind [64, 1000] h arena = .ok (taken, last, h') ∧
      last ≠ arena ∧ (∀ t ∈ taken, t.region.Within t.block) ∧ taken.Pairwise fun t t' => t.region.Apart t'.region := by
  obtain ⟨h, h', arena, last, taken, hinit, hrun, hne⟩ : ∃ (h h' : ArenaHeap) (arena last : Addr) (taken : List Taken),
      arenaInit .behind .empty 1024 = .ok (arena, h) ∧ arenaAllocs .behind [64, 1000] h arena = .ok (taken, last, h') ∧
        last ≠ arena := ⟨_, _, _, _, _, rfl, rfl, by decide⟩
  refine ⟨h, h', arena, last, taken, hinit, hrun, hne, ?_⟩
  exact (arena_regions_iff .behind .empty h h' 1024 arena last [64, 1000] taken hinit (by decide) hrun).2 (by decide)

/-- The table of 129 `size_t` referances, in the arena that `tvm_init` makes. -/
theorem referances_overrun : ∃ (h h' : ArenaHeap) (arena last : Addr) (t : Taken),
    arenaInit .behind .empty 1024 = .ok (arena, h) ∧ arenaAllocs .behind [8 * 129] h arena = .ok ([t], last, h') ∧
      ¬ t.region.Within t.block :=
  ⟨_, _, _, _, _, rfl, rfl, by decide⟩

end TileVm
