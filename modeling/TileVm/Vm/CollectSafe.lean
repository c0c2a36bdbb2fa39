/-
When collection is safe. `tgc_collect` is given one frame: what is reached from the operand stack, the
other frames or the global variables alone is not marked, and the sweep loses it together with
every block behind the first one it deletes.
-/
import TileVm.Vm.Chain
import TileVm.Vm.CollectSpec
import TileVm.Vm.Handles

namespace TileVm

open Except (Post)
open Marking (Marked White unmarked)
open Relation (ReflTransGen)

variable {W : Type} {vm : Vm W} {m m₁ m' : GcMemory} {a : Addr} {bs : List GcBlock}

/-! ## Roots -/

/-- A frame that was entered and not left: the current one and its callers. -/
def ActiveFrame (vm : Vm W) (a : Addr) : Prop := ∃ k ≤ vm.rsp, ∃ path, prevPath vm.frames k vm.frame = some path ∧ a ∈ path

/-- The payload of an object in use that is tagged as the address of a block. -/
inductive IsRoot (vm : Vm W) : Addr → Prop
  | stack {i : Nat} {o : ObjectT} (used : i < vm.sp) (get : vm.stack.get? i = some o)
      (tag : o.type = StackObjType.dataAddress.code) : IsRoot vm o.ui64
  | localVar {a : Addr} {f : TvmFrame} {i : Nat} {o : ObjectT} (active : ActiveFrame vm a) (frame : vm.frames a = some f)
      (get : f.localVars.get? i = some o) (tag : o.type = StackObjType.dataAddress.code) : IsRoot vm o.ui64
  | globalVar {i : Nat} {o : ObjectT} (get : vm.globalVars.get? i = some o)
      (tag : o.type = StackObjType.dataAddress.code) : IsRoot vm o.ui64

/-- A descriptor that is reached from a root, directly or through pointers. -/
def Reachable (vm : Vm W) (m : GcMemory) (a : Addr) : Prop :=
  ∃ r, IsRoot vm r ∧ ReflTransGen (fun x y => y ∈ m.children x) r a

/-- A live block: a descriptor with an allocated value. -/
def GcMemory.Live (m : GcMemory) (a : Addr) : Prop := ∃ b, m.block? a = some b ∧ Allocated m.heap.values b.value

/-- What the memory is like: the arrays lie apart in memory, `malloc` has given every block its own value, and pointers
lead to live blocks. -/
structure GcMemory.Proper (m : GcMemory) : Prop where
  inMemory : m.heap.InMemory
  apart : ∀ a b, m.nested a = some b → a ≠ 0 ∧ m.heap.index? a = none
  allocated : ∀ a b, m.block? a = some b → b.value = 0 ∨ Allocated m.heap.values b.value
  fresh : ∀ a a' b b', m.block? a = some b → m.block? a' = some b' → b.value = b'.value → b.value = 0 ∨ a = a'
  pointers : ∀ a, m.Live a → ∀ c ∈ m.children a, m.Live c

/-- A state in which every object tagged as an address holds the address of a live block. -/
structure Tagged (vm : Vm W) (m : GcMemory) : Prop where
  memory : m.Proper
  frame : ∃ f, vm.frames vm.frame = some f
  roots : ∀ a, IsRoot vm a → m.Live a

theorem Tagged.live (h : Tagged vm m) (ha : Reachable vm m a) : m.Live a := by
  obtain ⟨r, hr, hpath⟩ := ha
  induction hpath with
  | refl => exact h.roots r hr
  | tail _ hstep ih => exact h.memory.pointers _ ih _ hstep

theorem GcMemory.Proper.closed (h : m.Proper) : m.Closed m.Live where
  ne_zero a ha := by
    obtain ⟨b, hb, -⟩ := ha
    unfold GcMemory.block? at hb
    split at hb
    · rename_i i hi
      obtain ⟨hlt, rfl⟩ := TgcHeap.index?_some hi
      exact TgcHeap.addr_ne_zero h.inMemory hlt
    · exact (h.apart a b hb).1
  block a ha := by
    obtain ⟨b, hb, -⟩ := ha
    exact ⟨b, hb⟩
  children := h.pointers

/-! ## The promise and its condition -/

/-- The descriptor at an address is still there, its value not freed. -/
structure Kept (m m' : GcMemory) (a : Addr) : Prop where
  descriptor : ∀ b, m.block? a = some b → ∃ v, m'.block? a = some { b with marked := v }
  value : ∀ b, m.block? a = some b → Allocated m.heap.values b.value → Allocated m'.heap.values b.value

/-- `tgc_collect` on the current frame returns and keeps everything that is reachable. -/
def CollectsSafely (vm : Vm W) (m : GcMemory) : Prop :=
  ∃ fuel m', tgcCollect fuel vm.frames vm.frame m = .ok m' ∧ ∀ a, Reachable vm m a → Kept m m' a

/-- The tagged local variable `i` of a frame. -/
def localRoot (f : TvmFrame) (i : Nat) : List Addr :=
  match f.localVars.get? i with
  | some o => if o.type = StackObjType.dataAddress.code then [o.ui64] else []
  | none => []

/-- The roots that `tgc_collect` marks from. -/
def frameRoots (f : TvmFrame) : List Addr := (List.range tvmMaxLocalVar).flatMap (localRoot f)

/-- A descriptor has a mark already, or is reached from the local variables of the current frame over unmarked ones. -/
def MarkedFrom (vm : Vm W) (m : GcMemory) (a : Addr) : Prop :=
  m.marks a = true ∨ ∃ f, vm.frames vm.frame = some f ∧ ∃ r ∈ frameRoots f, White m.children m.marks r a

/-- Every slot of the array is written, and every slot up to a reachable one is marked. -/
structure MarksPrefix (vm : Vm W) (m : GcMemory) : Prop where
  written : ∀ s ∈ m.heap.blocks, s ≠ none
  marked : ∀ i < m.heap.blocks.length, Reachable vm m (m.heap.addr i) → ∀ j ≤ i, MarkedFrom vm m (m.heap.addr j)

/-! ## The marking phase -/

theorem localRoot_isRoot {f : TvmFrame} (hf : vm.frames vm.frame = some f) (ha : a ∈ frameRoots f) : IsRoot vm a := by
  obtain ⟨i, -, ha⟩ := List.mem_flatMap.1 ha
  unfold localRoot at ha
  split at ha
  · rename_i o ho
    split at ha
    · rename_i htag
      rw [List.mem_singleton.1 ha]
      have hpath : prevPath vm.frames 0 vm.frame = some [vm.frame] := by
        rw [prevPath, hf]
        rfl
      exact .localVar ⟨0, Nat.zero_le _, _, hpath, List.mem_singleton_self _⟩ hf ho htag
    · cases ha
  · cases ha

/-- What the loop over the local variables marks. -/
theorem markLocals_post {f : TvmFrame} (hm : m.Proper) (hroots : ∀ a ∈ frameRoots f, m.Live a) (fuel : Nat) :
    ((List.range tvmMaxLocalVar).foldlM (tgcMarkLocal fuel f) m).Post (fun e => e = .fuel ∧ fuel ≤ unmarked m.marks)
      fun m' => m'.cleared = m.cleared ∧ Marked m.children (frameRoots f) m.marks m'.marks := by
  refine Marking.foldlM_post GcMemory.marks (fun m' => m'.cleared = m.cleared)
    (fun M (e : Stop Fault) => e = .fuel ∧ fuel ≤ unmarked M) _
    (fun M M' e hle he => ⟨he.1, Nat.le_trans he.2 (Marking.unmarked_le hle)⟩) _ m rfl ?_
  intro i hi m₁ hm₁
  have hlive : ∀ a ∈ localRoot f i, m.Live a := fun a ha => hroots a (List.mem_flatMap.2 ⟨i, hi, ha⟩)
  unfold tgcMarkLocal
  unfold localRoot at hlive ⊢
  rw [CArray.get?_of_lt f.localVars (List.mem_range.1 hi)] at hlive ⊢
  dsimp only at hlive ⊢
  split
  · rename_i htag
    rw [if_pos htag] at hlive
    exact GcMemory.tgcMark_post hm.closed fuel m₁ _ (hlive _ (List.mem_singleton_self _)) hm₁
  · exact ⟨hm₁, .nil⟩

/-! ## The sweep -/

theorem swept_length (bs : List GcBlock) : (swept bs).length ≤ bs.length := by
  by_contra hlt
  obtain ⟨j, hj, y, hy, -⟩ := swept_from (List.getElem?_eq_getElem (Nat.not_le.1 hlt))
  have := (List.getElem?_eq_some_iff.1 hy).1
  omega

/-- The slots after marking, with their addresses before it. -/
structure AfterMarking (m m₁ : GcMemory) (bs : List GcBlock) : Prop where
  cleared : m₁.cleared = m.cleared
  blocks : m₁.heap.blocks = bs.map some

namespace AfterMarking

variable {i : Nat} {b : GcBlock}

theorem base (h : AfterMarking m m₁ bs) : m₁.heap.base = m.heap.base :=
  congrArg (fun m => m.heap.base) h.cleared

theorem values (h : AfterMarking m m₁ bs) : m₁.heap.values = m.heap.values :=
  congrArg (fun m => m.heap.values) h.cleared

theorem length (h : AfterMarking m m₁ bs) : m.heap.blocks.length = bs.length := by
  have hlen := congrArg (fun m : GcMemory => m.heap.blocks.length) h.cleared
  simp only [GcMemory.cleared, List.length_map, h.blocks] at hlen
  exact hlen.symm

theorem inMemory (h : AfterMarking m m₁ bs) (hm : m.Proper) : m₁.heap.InMemory :=
  hm.inMemory.of_le h.base (by rw [h.blocks, List.length_map, h.length])

theorem addr (h : AfterMarking m m₁ bs) (i : Nat) : m₁.heap.addr i = m.heap.addr i := by
  unfold TgcHeap.addr
  rw [h.base]

/-- A slot is a descriptor at its address. -/
theorem block?_addr (h : AfterMarking m m₁ bs) (hm : m.Proper) (hb : bs[i]? = some b) : m₁.block? (m.heap.addr i) = some b := by
  have hlt : i < m₁.heap.blocks.length := by
    rw [h.blocks, List.length_map]
    exact (List.getElem?_eq_some_iff.1 hb).1
  unfold GcMemory.block?
  rw [← h.addr, TgcHeap.index?_addr (h.inMemory hm) hlt, h.blocks]
  dsimp only
  rw [List.getElem?_map, hb]
  rfl

theorem before (h : AfterMarking m m₁ bs) (hm : m.Proper) (hb : bs[i]? = some b) :
    ∃ v, m.block? (m.heap.addr i) = some { b with marked := v } :=
  GcMemory.block?_congr h.cleared.symm (h.block?_addr hm hb)

theorem marks_addr (h : AfterMarking m m₁ bs) (hm : m.Proper) (hb : bs[i]? = some b) :
    m₁.marks (m.heap.addr i) = true ↔ b.marked ≠ 0 := by
  unfold GcMemory.marks
  rw [h.block?_addr hm hb]
  simp

/-- Blocks with one value are one block. -/
theorem same_slot (h : AfterMarking m m₁ bs) (hm : m.Proper) {j : Nat} {c : GcBlock} (hb : m.block? a = some b)
    (hc : bs[j]? = some c) (hvalue : c.value = b.value) (hne : b.value ≠ 0) : a = m.heap.addr j := by
  obtain ⟨v, hc⟩ := h.before hm hc
  exact (hm.fresh _ _ _ _ hb hc hvalue.symm).resolve_left hne

theorem ownValues (h : AfterMarking m m₁ bs) (hm : m.Proper) : OwnValues m₁.heap.values bs := by
  rw [h.values]
  constructor
  · rw [List.pairwise_iff_getElem]
    intro i j hi hj hij heq
    by_contra hne
    obtain ⟨v, hb⟩ := h.before hm (List.getElem?_eq_getElem hi)
    have haddr := h.same_slot hm hb (List.getElem?_eq_getElem hj) heq.symm hne
    have hi' := TgcHeap.index?_addr hm.inMemory (h.length ▸ hi)
    rw [haddr, TgcHeap.index?_addr hm.inMemory (h.length ▸ hj)] at hi'
    cases hi'
    exact Nat.lt_irrefl _ hij
  · intro b hb
    obtain ⟨i, hi⟩ := List.getElem?_of_mem hb
    obtain ⟨v, hb⟩ := h.before hm hi
    have hvalue := hm.allocated _ _ hb
    exact hvalue

theorem index?_slot (h : AfterMarking m m₁ bs) (hm : m.Proper) (hb : bs[i]? = some b) :
    m.heap.index? (m.heap.addr i) = some i :=
  TgcHeap.index?_addr hm.inMemory (h.length ▸ (List.getElem?_eq_some_iff.1 hb).1)

end AfterMarking

/-- What is live stays exactly when no slot up to it is left without a mark. -/
theorem kept_iff (hm : m.Proper) (h : AfterMarking m m₁ bs) (hs : SweptTo m₁ m' [] bs) (hlive : m.Live a) :
    Kept m m' a ↔ ∀ i, m.heap.index? a = some i → ¬ Gap bs i := by
  obtain ⟨b, hb, hvalue⟩ := hlive
  have hlen : m'.heap.blocks.length ≤ m.heap.blocks.length := by
    rw [hs.blocks, h.length, List.nil_append, List.length_map]
    exact swept_length bs
  have hbase : m'.heap.base = m.heap.base := hs.base.trans h.base
  have haddr (k : Nat) : m'.heap.addr k = m.heap.addr k := by
    unfold TgcHeap.addr
    rw [hbase]
  have hindex {k : Nat} (hk : m'.heap.index? a = some k) : m.heap.index? a = some k := by
    obtain ⟨hlt, rfl⟩ := TgcHeap.index?_some hk
    rw [haddr]
    exact TgcHeap.index?_addr hm.inMemory (Nat.lt_of_lt_of_le hlt hlen)
  have hslot (k : Nat) : (m'.heap.blocks[k]?).join = (swept bs)[k]? := by
    rw [hs.blocks, List.nil_append, List.getElem?_map]
    cases (swept bs)[k]? <;> rfl
  obtain ⟨v₁, hb₁⟩ := GcMemory.block?_congr h.cleared hb
  constructor
  · intro hkept i hi hgap
    obtain ⟨v, hv⟩ := hkept.descriptor b hb
    unfold GcMemory.block? at hv
    cases hk : m'.heap.index? a with
    | none =>
      rw [hk, hs.nested] at hv
      have hnested := congrFun (congrArg GcMemory.nested h.cleared) a
      obtain ⟨c, hc, -⟩ := Option.map_eq_some_iff.1 (hnested.symm.trans (congrArg (Option.map GcBlock.clear) hv))
      rw [(hm.apart a c hc).2] at hi
      cases hi
    | some k =>
      -- the slot at `a` is filled from behind, with another value
      rw [hk] at hv
      obtain rfl : k = i := Option.some.inj ((hindex hk).symm.trans hi)
      obtain ⟨j, -, y, hy, hyvalue, hshift⟩ := swept_from ((hslot k).symm.trans hv)
      have hja := h.same_slot hm hb hy hyvalue.symm hvalue.1
      rw [hja, h.index?_slot hm hy] at hi
      have hlt := hshift hgap
      cases hi
      exact Nat.lt_irrefl _ hlt
  · intro hfree
    constructor
    · intro b' hb'
      obtain rfl : b = b' := Option.some.inj (hb.symm.trans hb')
      cases hi : m.heap.index? a with
      | none =>
        have hnone : m'.heap.index? a = none := by
          cases hk : m'.heap.index? a with
          | none => rfl
          | some k =>
            rw [hindex hk] at hi
            cases hi
        unfold GcMemory.block? at hb₁ ⊢
        rw [GcMemory.index?_congr h.cleared, hi] at hb₁
        rw [hnone, hs.nested]
        exact ⟨v₁, hb₁⟩
      | some i =>
        obtain ⟨hlt, rfl⟩ := TgcHeap.index?_some hi
        have hget := List.getElem?_eq_getElem (h.length ▸ hlt : i < bs.length)
        have hc := (h.block?_addr hm hget).symm.trans hb₁
        have hswept := swept_before (hfree i hi)
        rw [hget, Option.some.inj hc] at hswept
        have hlt' : i < m'.heap.blocks.length := by
          rw [hs.blocks, List.nil_append, List.length_map]
          exact (List.getElem?_eq_some_iff.1 hswept).1
        have hmem' := hm.inMemory.of_le hbase hlen
        unfold GcMemory.block?
        rw [← haddr, TgcHeap.index?_addr hmem' hlt']
        dsimp only
        rw [hslot, hswept]
        exact ⟨0, rfl⟩
    · intro b' hb' _
      obtain rfl : b = b' := Option.some.inj (hb.symm.trans hb')
      rw [hs.values, h.values]
      refine ⟨hvalue, fun hfreed => ?_⟩
      obtain ⟨j, c, hc, hcvalue, hgap⟩ := freed_from hfreed
      have hja := h.same_slot hm hb hc hcvalue hvalue.1
      exact hfree j (hja ▸ h.index?_slot hm hc) hgap

/-! ## The collection -/

/-- A gap is a slot that the marking phase has not reached. -/
theorem gap_iff {f : TvmFrame} (hm : m.Proper) (h : AfterMarking m m₁ bs) (hf : vm.frames vm.frame = some f)
    (hmarked : Marked m.children (frameRoots f) m.marks m₁.marks) {i : Nat} (hi : i < m.heap.blocks.length) :
    ¬ Gap bs i ↔ ∀ j ≤ i, MarkedFrom vm m (m.heap.addr j) := by
  have hfrom (a : Addr) : MarkedFrom vm m a ↔ m₁.marks a = true := by
    rw [hmarked.mark_iff]
    constructor
    · rintro (ha | ⟨f', hf', hr⟩)
      · exact .inl ha
      · cases hf.symm.trans hf'
        exact .inr hr
    · rintro (ha | hr)
      · exact .inl ha
      · exact .inr ⟨f, hf, hr⟩
  have hlen := h.length
  constructor
  · intro hgap j hj
    have hget := List.getElem?_eq_getElem (show j < bs.length by omega)
    rw [hfrom, h.marks_addr hm hget]
    exact fun hclear => hgap ⟨j, hj, _, hget, hclear⟩
  · rintro hall ⟨j, hj, c, hc, hclear⟩
    exact (h.marks_addr hm hc).1 ((hfrom _).1 (hall j hj)) hclear

/-- A collection that returns marks from the current frame and sweeps an array whose slots are all written. -/
theorem collect_ok {f : TvmFrame} {fuel : Nat} (h : Tagged vm m) (hf : vm.frames vm.frame = some f)
    (hc : tgcCollect fuel vm.frames vm.frame m = .ok m') : ∃ m₁ bs, AfterMarking m m₁ bs ∧
      Marked m.children (frameRoots f) m.marks m₁.marks ∧ SweptTo m₁ m' [] bs := by
  unfold tgcCollect at hc
  rw [Except.bind_of_ok (Except.mapError_eq_ok.2 (FrameStore.load_ok.2 hf))] at hc
  obtain ⟨m₁, hmark, hc⟩ := Except.bind_ok hc
  have hsweep := Except.mapError_eq_ok.1 hc
  have hlive : ∀ a ∈ frameRoots f, m.Live a := fun a ha => h.roots a (localRoot_isRoot hf ha)
  obtain ⟨hclear, hmarked⟩ := (markLocals_post h.memory hlive fuel).of_ok hmark
  obtain ⟨bs, hbs⟩ := sweep_written hsweep
  have hafter : AfterMarking m m₁ bs := ⟨hclear, hbs⟩
  obtain ⟨m₂, hm₂, hswept⟩ := sweep_eq hbs (hafter.ownValues h.memory)
  cases hsweep.symm.trans hm₂
  exact ⟨m₁, bs, hafter, hmarked, hswept⟩

/-- Slots that are written stay so while only marks change. -/
theorem written_of_cleared (h : m₁.cleared = m.cleared) (hwritten : ∀ s ∈ m.heap.blocks, s ≠ none) :
    ∀ s ∈ m₁.heap.blocks, s ≠ none := by
  rintro s hs rfl
  have hblocks : m₁.heap.blocks.map (Option.map GcBlock.clear) = m.heap.blocks.map (Option.map GcBlock.clear) :=
    congrArg (fun m => m.heap.blocks) h
  have hs := List.mem_map_of_mem (f := Option.map GcBlock.clear) hs
  rw [hblocks] at hs
  obtain ⟨s, hs, hnone⟩ := List.mem_map.1 hs
  exact hwritten s hs (Option.map_eq_none_iff.1 hnone)

/-- It returns when every slot is written, with fuel for the unmarked descriptors. -/
theorem collect_returns (h : Tagged vm m) (hwritten : ∀ s ∈ m.heap.blocks, s ≠ none) :
    ∃ fuel m', tgcCollect fuel vm.frames vm.frame m = .ok m' := by
  obtain ⟨f, hf⟩ := h.frame
  have hlive : ∀ a ∈ frameRoots f, m.Live a := fun a ha => h.roots a (localRoot_isRoot hf ha)
  have hpost := markLocals_post h.memory hlive (unmarked m.marks + 1)
  cases hmark : (List.range tvmMaxLocalVar).foldlM (tgcMarkLocal (unmarked m.marks + 1) f) m with
  | error e =>
    obtain ⟨-, hle⟩ := hpost.of_error hmark
    omega
  | ok m₁ =>
    obtain ⟨hclear, -⟩ := hpost.of_ok hmark
    have hrange : m₁.heap.blocks ∈ Set.range (List.map some) := by
      rw [Set.range_list_map]
      intro s hs
      obtain ⟨b, rfl⟩ := Option.ne_none_iff_exists'.1 (written_of_cleared hclear hwritten s hs)
      exact ⟨b, rfl⟩
    obtain ⟨bs, hbs⟩ := hrange
    have hafter : AfterMarking m m₁ bs := ⟨hclear, hbs.symm⟩
    obtain ⟨m', hm', -⟩ := sweep_eq hbs.symm (hafter.ownValues h.memory)
    refine ⟨unmarked m.marks + 1, m', ?_⟩
    unfold tgcCollect
    rw [Except.bind_of_ok (Except.mapError_eq_ok.2 (FrameStore.load_ok.2 hf)), Except.bind_of_ok hmark]
    exact Except.mapError_eq_ok.2 hm'

theorem collectsSafely_iff (h : Tagged vm m) : CollectsSafely vm m ↔ MarksPrefix vm m := by
  obtain ⟨f, hf⟩ := h.frame
  constructor
  · rintro ⟨fuel, m', hcollect, hkept⟩
    obtain ⟨m₁, bs, hafter, hmarked, hswept⟩ := collect_ok h hf hcollect
    constructor
    · refine written_of_cleared hafter.cleared.symm ?_
      rw [hafter.blocks]
      rintro s hs rfl
      obtain ⟨b, -, hb⟩ := List.mem_map.1 hs
      cases hb
    · intro i hi hreach
      have hlive := h.live hreach
      have hgap := (kept_iff h.memory hafter hswept hlive).1 (hkept _ hreach) i (TgcHeap.index?_addr h.memory.inMemory hi)
      exact (gap_iff h.memory hafter hf hmarked hi).1 hgap
  · intro hmarks
    obtain ⟨fuel, m', hcollect⟩ := collect_returns h hmarks.written
    obtain ⟨m₁, bs, hafter, hmarked, hswept⟩ := collect_ok h hf hcollect
    refine ⟨fuel, m', hcollect, fun a hreach => ?_⟩
    refine (kept_iff h.memory hafter hswept (h.live hreach)).2 fun i hi => ?_
    obtain ⟨hlt, rfl⟩ := TgcHeap.index?_some hi
    exact (gap_iff h.memory hafter hf hmarked hlt).2 (hmarks.marked i hlt hreach)

/-- For every state in which tagged objects hold addresses of live blocks: collection keeps everything that is reachable
from the stack, the frames and the global variables if and only if the slots of the array are all written and those up
to a reachable one are all marked from the current frame. -/
theorem collect_safe_iff (vm : Vm W) (nested : Addr → Option GcBlock) (arrlen : Addr → Nat)
    (h : Tagged vm (vm.gcMemory nested arrlen)) :
    CollectsSafely vm (vm.gcMemory nested arrlen) ↔ MarksPrefix vm (vm.gcMemory nested arrlen) :=
  collectsSafely_iff h

/-! ## A heap of one block -/

section OneBlock

variable {b c : GcBlock}

/-- The array holds one block without pointers or mark. -/
structure OneBlock (m : GcMemory) (b : GcBlock) : Prop where
  blocks : m.heap.blocks = [some b]
  nested : ∀ a, m.nested a = none
  value : Allocated m.heap.values b.value
  room : 0 < m.heap.base.toNat ∧ m.heap.base.toNat + gcBlockSize ≤ 2 ^ 64
  pointers : b.pointers = 0
  clear : b.marked = 0

theorem OneBlock.addr (m : GcMemory) : m.heap.addr 0 = m.heap.base := by
  unfold TgcHeap.addr
  rw [Nat.mul_zero]
  exact BitVec.add_zero _

theorem OneBlock.inMemory (h : OneBlock m b) : m.heap.InMemory := by
  intro _
  rw [h.blocks]
  exact h.room

theorem OneBlock.block?_iff (h : OneBlock m b) : m.block? a = some c ↔ a = m.heap.base ∧ c = b := by
  have hlen : m.heap.blocks.length = 1 := by rw [h.blocks]; rfl
  unfold GcMemory.block?
  constructor
  · intro ha
    split at ha
    · rename_i i hi
      obtain ⟨hlt, rfl⟩ := TgcHeap.index?_some hi
      obtain rfl : i = 0 := by omega
      rw [h.blocks] at ha
      exact ⟨OneBlock.addr m, (Option.some.inj ha).symm⟩
    · rw [h.nested] at ha
      cases ha
  · rintro ⟨rfl, rfl⟩
    rw [← OneBlock.addr m, TgcHeap.index?_addr h.inMemory (by omega), h.blocks]
    rfl

theorem OneBlock.children (h : OneBlock m b) (a : Addr) : m.children a = [] := by
  unfold GcMemory.children
  split
  · rename_i c hc
    obtain ⟨-, rfl⟩ := h.block?_iff.1 hc
    unfold GcMemory.pointersOf
    rw [if_pos h.pointers]
    rfl
  · rfl

theorem OneBlock.proper (h : OneBlock m b) : m.Proper where
  inMemory := h.inMemory
  apart a c hc := by
    rw [h.nested] at hc
    cases hc
  allocated a c hc := by
    obtain ⟨-, rfl⟩ := h.block?_iff.1 hc
    exact .inr h.value
  fresh a a' c c' hc hc' _ := by
    obtain ⟨rfl, -⟩ := h.block?_iff.1 hc
    obtain ⟨rfl, -⟩ := h.block?_iff.1 hc'
    exact .inr rfl
  pointers a _ c hc := by
    rw [h.children] at hc
    cases hc

/-- The block has no mark, so that it is marked from the current frame if a local variable holds its address. -/
theorem OneBlock.markedFrom_iff (h : OneBlock m b) {f : TvmFrame} (hf : vm.frames vm.frame = some f) :
    MarkedFrom vm m m.heap.base ↔ m.heap.base ∈ frameRoots f := by
  have hclear : m.marks m.heap.base = false := by
    unfold GcMemory.marks
    rw [h.block?_iff.2 ⟨rfl, rfl⟩, Option.any_some, h.clear]
    rfl
  unfold MarkedFrom
  rw [hclear]
  constructor
  · rintro (hmark | ⟨f', hf', r, hr, -, hpath⟩)
    · cases hmark
    · cases hf.symm.trans hf'
      rcases hpath.cases_head with rfl | ⟨c, hc, -⟩
      · exact hr
      · rw [h.children] at hc
        cases hc.1
  · exact fun hr => .inr ⟨f, hf, _, hr, .refl hclear⟩

/-- The objects of an array that are tagged hold the address `a`. -/
def HoldsOnly {n : Nat} (objects : CArray ObjectT n) (a : Addr) : Prop :=
  ∀ i o, objects.get? i = some o → o.type = StackObjType.dataAddress.code → o.ui64 = a

theorem HoldsOnly.fill (n : Nat) (a : Addr) : HoldsOnly (CArray.fill ObjectT.zero : CArray ObjectT n) a := by
  intro i o ho htag
  rw [CArray.get?_fill _ (CArray.get?_lt ho)] at ho
  cases ho
  exact absurd htag (by decide)

theorem HoldsOnly.put {n : Nat} {objects : CArray ObjectT n} (h : HoldsOnly objects a) (i : Nat) {o : ObjectT}
    (ho : o.type = StackObjType.dataAddress.code → o.ui64 = a) : HoldsOnly (objects.put i o) a := by
  intro j o' ho' htag
  by_cases hj : j = i
  · subst hj
    have hlt := CArray.get?_lt ho'
    rw [CArray.get?_put_self _ _ hlt] at ho'
    cases ho'
    exact ho htag
  · rw [CArray.get?_put_of_ne _ _ hj] at ho'
    exact h j o' ho' htag

/-- Outside of calls, tagged objects that hold the address of the one block. -/
theorem OneBlock.tagged (h : OneBlock m b) {f : TvmFrame} (hf : vm.frames vm.frame = some f) (hrsp : vm.rsp = 0)
    (hstack : HoldsOnly vm.stack m.heap.base) (hlocals : HoldsOnly f.localVars m.heap.base)
    (hglobals : HoldsOnly vm.globalVars m.heap.base) : Tagged vm m where
  memory := h.proper
  frame := ⟨f, hf⟩
  roots a ha := by
    have hbase : a = m.heap.base := by
      cases ha with
      | stack _ get tag => exact hstack _ _ get tag
      | localVar active frame get tag =>
        obtain ⟨k, hk, path, hpath, hmem⟩ := active
        obtain rfl : k = 0 := by omega
        rw [prevPath, hf] at hpath
        cases hpath
        rw [List.mem_singleton.1 hmem, hf] at frame
        cases frame
        exact hlocals _ _ get tag
      | globalVar get tag => exact hglobals _ _ get tag
    exact ⟨b, h.block?_iff.2 ⟨hbase, rfl⟩, h.value⟩

end OneBlock

/-- The instructions `push 8`, `push 0`, `halloc`, `store 0`. -/
def storedBlock : TvmProgram :=
  let push (n : BitVec 64) : Opcode := ⟨OpType.push.code, ⟨StackObjType.number.code, n⟩⟩
  { TvmProgram.zero with
    code := TvmProgram.zero.code.putAll 0 [push 8, push 0, ⟨OpType.halloc.code, .zero⟩, ⟨OpType.store.code, .zero⟩]
    size := 4 }

/-- A state outside of calls with one block at 262144, whose address tagged objects hold. -/
structure StoredState (vm : Vm Unit) (locals : CArray ObjectT tvmMaxLocalVar) : Prop where
  block : OneBlock (vm.gcMemory (fun _ => none) fun _ => 0) ⟨4096, 0, 8, 0, 0⟩
  base : vm.heap.base = 262144
  rsp : vm.rsp = 0
  stack : HoldsOnly vm.stack 262144
  frame : ∃ f, vm.frames vm.frame = some f ∧ f.localVars = locals
  globals : HoldsOnly vm.globalVars 262144

theorem StoredState.tagged {vm : Vm Unit} {locals : CArray ObjectT tvmMaxLocalVar} (h : StoredState vm locals)
    (hlocals : HoldsOnly locals 262144) : Tagged vm (vm.gcMemory (fun _ => none) fun _ => 0) := by
  obtain ⟨f, hf, rfl⟩ := h.frame
  have hbase : (vm.gcMemory (fun _ => none) fun _ => 0).heap.base = 262144 := h.base
  exact h.block.tagged hf h.rsp (hbase ▸ h.stack) (hbase ▸ hlocals) (hbase ▸ h.globals)

/-- The states before and after the `store`: the address of the block is on the stack, then in local variable 0. -/
theorem storedBlock_run : ∃ vm0 vm1 vm2 vm3 vm4 : Vm Unit,
    tvmInit movingHost storedBlock () = .ok vm0 ∧ tvmRunBody movingHost vm0 = .ok vm1 ∧ tvmRunBody movingHost vm1 = .ok vm2 ∧
    tvmRunBody movingHost vm2 = .ok vm3 ∧ tvmRunBody movingHost vm3 = .ok vm4 ∧
    (StoredState vm3 (.fill .zero) ∧ vm3.sp = 1 ∧
      vm3.stack.get? 0 = some ⟨StackObjType.dataAddress.code, 262144⟩) ∧
    StoredState vm4 ((CArray.fill .zero).put 0 ⟨StackObjType.dataAddress.code, 262144⟩) := by
  have hstack (o : ObjectT) (ho : o.type = StackObjType.dataAddress.code → o.ui64 = 262144) (o1 o2 : ObjectT)
      (h1 : o1.type ≠ StackObjType.dataAddress.code) (h2 : o2.type ≠ StackObjType.dataAddress.code) :
      HoldsOnly ((((CArray.fill ObjectT.zero : CArray ObjectT tvmStackCapacity).put 0 o1).put 1 o2).put 0 o) 262144 :=
    (((HoldsOnly.fill _ _).put 0 fun h => absurd h h1).put 1 fun h => absurd h h2).put 0 ho
  refine ⟨_, _, _, _, _, rfl, rfl, rfl, rfl, rfl, ⟨?_, rfl, rfl⟩, ?_⟩
  · refine ⟨⟨rfl, fun _ => rfl, ⟨by decide, _, List.mem_singleton_self _, rfl⟩, by decide, rfl, rfl⟩, rfl, rfl, ?_,
      ⟨_, rfl, rfl⟩, .fill _ _⟩
    exact hstack _ (fun _ => rfl) _ _ (by decide) (by decide)
  · refine ⟨⟨rfl, fun _ => rfl, ⟨by decide, _, List.mem_singleton_self _, rfl⟩, by decide, rfl, rfl⟩, rfl, rfl, ?_,
      ⟨_, rfl, rfl⟩, .fill _ _⟩
    exact hstack _ (fun _ => rfl) _ _ (by decide) (by decide)

theorem collect_safe_local : ∃ vm : Vm Unit,
    StoredState vm ((CArray.fill .zero).put 0 ⟨StackObjType.dataAddress.code, 262144⟩) ∧
      CollectsSafely vm (vm.gcMemory (fun _ => none) fun _ => 0) := by
  obtain ⟨-, -, -, -, vm, -, -, -, -, -, -, h⟩ := storedBlock_run
  have hput : HoldsOnly ((CArray.fill ObjectT.zero : CArray ObjectT tvmMaxLocalVar).put 0 ⟨StackObjType.dataAddress.code, 262144⟩)
      262144 := (HoldsOnly.fill _ _).put 0 fun _ => rfl
  refine ⟨vm, h, (collect_safe_iff vm (fun _ => none) (fun _ => 0) (h.tagged hput)).2 ⟨?_, ?_⟩⟩
  · rintro s hs rfl
    rw [h.block.blocks] at hs
    cases List.mem_singleton.1 hs
  · intro i hi _ j hj
    obtain ⟨f, hf, hlocals⟩ := h.frame
    rw [h.block.blocks] at hi
    obtain rfl : i = 0 := by simpa using hi
    obtain rfl : j = 0 := by omega
    rw [OneBlock.addr, h.block.markedFrom_iff hf]
    refine List.mem_flatMap.2 ⟨0, List.mem_range.2 (by decide), ?_⟩
    unfold localRoot
    rw [hlocals, CArray.get?_put_self _ _ (by decide), show (vm.gcMemory _ _).heap.base = 262144 from h.base]
    exact List.mem_singleton_self _

/-- A block whose address is on the operand stack alone is lost. -/
theorem collect_loses_stack : ∃ vm : Vm Unit, StoredState vm (.fill .zero) ∧
    Tagged vm (vm.gcMemory (fun _ => none) fun _ => 0) ∧ ¬ CollectsSafely vm (vm.gcMemory (fun _ => none) fun _ => 0) := by
  obtain ⟨-, -, -, vm, -, -, -, -, -, -, ⟨h, hsp, htop⟩, -⟩ := storedBlock_run
  have htagged := h.tagged (.fill _ _)
  refine ⟨vm, h, htagged, fun hsafe => ?_⟩
  obtain ⟨f, hf, hlocals⟩ := h.frame
  have hreach : Reachable vm (vm.gcMemory (fun _ => none) fun _ => 0) (vm.heap.addr 0) := by
    refine ⟨262144, .stack (by omega) htop rfl, ?_⟩
    rw [show vm.heap.addr 0 = 262144 from (OneBlock.addr (vm.gcMemory (fun _ => none) fun _ => 0)).trans h.base]
  have hmarked := ((collectsSafely_iff htagged).1 hsafe).marked 0 (by rw [h.block.blocks]; decide) hreach 0 (Nat.le_refl 0)
  rw [OneBlock.addr, h.block.markedFrom_iff hf] at hmarked
  obtain ⟨i, hi, hroot⟩ := List.mem_flatMap.1 hmarked
  unfold localRoot at hroot
  rw [hlocals, CArray.get?_fill _ (List.mem_range.1 hi)] at hroot
  cases hroot

end TileVm
