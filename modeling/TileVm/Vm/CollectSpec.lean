/-
What the collector does. Marking from a list of live descriptors marks what is reached from them over
unmarked ones and changes nothing else. Sweeping leaves the slots before the first one without a mark
where they are; each slot behind it is deleted or moves down.
-/
import Mathlib.Data.Set.List
import TileVm.Lib.Marking
import TileVm.Vm.Collect
import TileVm.Vm.Memory

namespace TileVm

open Except (Post)
open Marking (Marked White unmarked unmarkedIn)

instance finiteQuadword : Finite (BitVec 64) := Finite.of_injective BitVec.toFin fun _ _ h => BitVec.eq_of_toFin_eq h

/-! ## Slots and addresses -/

namespace TgcHeap

variable {h : TgcHeap} {a : Addr} {i j : Nat}

theorem index?_some (hi : h.index? a = some i) : i < h.blocks.length ∧ a = h.addr i := by
  unfold index? at hi
  dsimp only at hi
  split at hi
  · rename_i hoff
    cases hi
    refine ⟨hoff.2, ?_⟩
    unfold addr
    rw [show gcBlockSize * ((a - h.base).toNat / gcBlockSize) = (a - h.base).toNat from Nat.mul_div_cancel' (Nat.dvd_of_mod_eq_zero hoff.1),
      BitVec.ofNat_toNat, BitVec.setWidth_eq, BitVec.add_comm, BitVec.sub_add_cancel]
  · cases hi

/-- The array lies in memory. -/
def InMemory (h : TgcHeap) : Prop :=
  h.blocks ≠ [] → 0 < h.base.toNat ∧ h.base.toNat + gcBlockSize * h.blocks.length ≤ 2 ^ 64

theorem addr_toNat (hmem : h.InMemory) (hi : i < h.blocks.length) : (h.addr i).toNat = h.base.toNat + gcBlockSize * i := by
  obtain ⟨-, hroom⟩ := hmem (List.ne_nil_of_length_pos (Nat.zero_lt_of_lt hi))
  have hlt : gcBlockSize * i < gcBlockSize * h.blocks.length := Nat.mul_lt_mul_of_pos_left hi (by decide)
  unfold addr
  rw [BitVec.toNat_add, BitVec.toNat_ofNat]
  omega

theorem addr_ne_zero (hmem : h.InMemory) (hi : i < h.blocks.length) : h.addr i ≠ 0 := by
  obtain ⟨hpos, -⟩ := hmem (List.ne_nil_of_length_pos (Nat.zero_lt_of_lt hi))
  intro hzero
  have hnat := addr_toNat hmem hi
  rw [hzero] at hnat
  have hnat : 0 = h.base.toNat + gcBlockSize * i := hnat
  omega

theorem index?_addr (hmem : h.InMemory) (hi : i < h.blocks.length) : h.index? (h.addr i) = some i := by
  obtain ⟨-, hroom⟩ := hmem (List.ne_nil_of_length_pos (Nat.zero_lt_of_lt hi))
  have hlt : gcBlockSize * i < gcBlockSize * h.blocks.length := Nat.mul_lt_mul_of_pos_left hi (by decide)
  have hoff : (h.addr i - h.base).toNat = gcBlockSize * i := by
    unfold addr
    rw [sub_add_cancel_left, BitVec.toNat_ofNat]
    exact Nat.mod_eq_of_lt (by omega)
  unfold index?
  dsimp only
  rw [hoff, Nat.mul_mod_right, Nat.mul_div_cancel_left _ (by decide)]
  exact if_pos ⟨rfl, hi⟩

/-- A shorter array at the same place. -/
theorem InMemory.of_le {h' : TgcHeap} (hmem : h.InMemory) (hbase : h'.base = h.base)
    (hlen : h'.blocks.length ≤ h.blocks.length) : h'.InMemory := by
  intro hne
  have hne := List.length_pos_iff.2 hne
  obtain ⟨hpos, hroom⟩ := hmem (List.length_pos_iff.1 (by omega))
  have hmul := Nat.mul_le_mul_left gcBlockSize hlen
  rw [hbase]
  exact ⟨hpos, by omega⟩

end TgcHeap

/-! ## Marks -/

/-- The descriptor without its mark. -/
def GcBlock.clear (b : GcBlock) : GcBlock := { b with marked := 0 }

namespace GcMemory

variable {m m' : GcMemory} {a x : Addr} {b : GcBlock}

/-- The memory without its marks. -/
def cleared (m : GcMemory) : GcMemory :=
  { m with
    heap := { m.heap with blocks := m.heap.blocks.map (Option.map GcBlock.clear) }
    nested := fun a => (m.nested a).map GcBlock.clear }

/-- The mark at an address. -/
def marks (m : GcMemory) (a : Addr) : Bool := (m.block? a).any (·.marked ≠ 0)

/-- The descriptors that the one at an address points to. -/
def children (m : GcMemory) (a : Addr) : List Addr :=
  match m.block? a with
  | some b => m.pointersOf b
  | none => []

theorem index?_cleared (m : GcMemory) (a : Addr) : m.cleared.heap.index? a = m.heap.index? a := by
  unfold TgcHeap.index? cleared
  simp only [List.length_map]

theorem block?_cleared (m : GcMemory) (a : Addr) : m.cleared.block? a = (m.block? a).map GcBlock.clear := by
  unfold block?
  rw [index?_cleared]
  cases m.heap.index? a with
  | none => rfl
  | some i =>
    show ((m.heap.blocks.map (Option.map GcBlock.clear))[i]?).join = (m.heap.blocks[i]?).join.map GcBlock.clear
    rw [List.getElem?_map]
    rcases m.heap.blocks[i]? with _ | _ | b <;> rfl

theorem children_cleared (m : GcMemory) : m.cleared.children = m.children := by
  funext a
  unfold children
  rw [block?_cleared]
  cases m.block? a <;> rfl

theorem children_congr (h : m'.cleared = m.cleared) : m'.children = m.children := by
  rw [← children_cleared m', h, children_cleared]

theorem index?_congr (h : m'.cleared = m.cleared) (a : Addr) : m'.heap.index? a = m.heap.index? a := by
  rw [← index?_cleared m', h, index?_cleared]

/-- Descriptors agree but for the mark. -/
theorem block?_congr (h : m'.cleared = m.cleared) (hb : m.block? a = some b) :
    ∃ v, m'.block? a = some { b with marked := v } := by
  have hclear := (block?_cleared m' a).symm.trans ((congrArg (·.block? a) h).trans (block?_cleared m a))
  rw [hb] at hclear
  obtain ⟨b', hb', heq⟩ := Option.map_eq_some_iff.1 hclear
  refine ⟨b'.marked, hb'.trans (congrArg some ?_)⟩
  obtain ⟨value, count, size, pointers, marked⟩ := b'
  obtain ⟨value', count', size', pointers', marked'⟩ := b
  cases heq
  rfl

theorem setMarked_cleared (m : GcMemory) (a : Addr) : (m.setMarked a).cleared = m.cleared := by
  unfold setMarked
  split
  · rename_i i _
    have hblocks : (m.heap.blocks.modify i (Option.map fun b => { b with marked := 1 })).map (Option.map GcBlock.clear) =
        m.heap.blocks.map (Option.map GcBlock.clear) := by
      apply List.ext_getElem?
      intro j
      rw [List.getElem?_map, List.getElem?_map, List.getElem?_modify]
      split
      · rcases m.heap.blocks[j]? with _ | _ | b <;> rfl
      · rcases m.heap.blocks[j]? with _ | _ | b <;> rfl
    unfold cleared
    simp only [hblocks]
  · have hnested (x : Addr) : (Function.update m.nested a ((m.nested a).map fun b => { b with marked := 1 }) x).map GcBlock.clear =
        (m.nested x).map GcBlock.clear := by
      by_cases hx : x = a
      · subst hx
        rw [Function.update_self]
        cases m.nested x <;> rfl
      · rw [Function.update_of_ne hx]
    unfold cleared
    simp only [hnested]

/-- A mark is set on one descriptor. -/
theorem block?_setMarked (m : GcMemory) (a x : Addr) :
    (m.setMarked a).block? x = if x = a then (m.block? a).map fun b => { b with marked := 1 } else m.block? x := by
  have hindex := index?_congr (setMarked_cleared m a) x
  unfold block?
  rw [hindex]
  cases ha : m.heap.index? a with
  | some i =>
    -- the block has a slot in the table
    have hset : m.setMarked a = { m with heap := { m.heap with
        blocks := m.heap.blocks.modify i (Option.map fun b => { b with marked := 1 }) } } := by
      unfold setMarked
      rw [ha]
    rw [hset]
    cases hx : m.heap.index? x with
    | none =>
      rw [if_neg]
      rintro rfl
      rw [ha] at hx
      cases hx
    | some j =>
      dsimp only
      rw [List.getElem?_modify]
      by_cases hij : i = j
      · subst hij
        obtain ⟨-, rfl⟩ := TgcHeap.index?_some ha
        obtain ⟨-, rfl⟩ := TgcHeap.index?_some hx
        rw [if_pos rfl]
        rcases m.heap.blocks[i]? with _ | _ | b <;> simp
      · have hne : x ≠ a := by
          rintro rfl
          exact hij (Option.some.inj (ha.symm.trans hx))
        rw [if_neg hne]
        rcases m.heap.blocks[j]? with _ | _ | b <;> simp [hij]
  | none =>
    -- a nested block has none
    have hset : m.setMarked a = { m with
        nested := Function.update m.nested a ((m.nested a).map fun b => { b with marked := 1 }) } := by
      unfold setMarked
      rw [ha]
    rw [hset]
    cases hx : m.heap.index? x with
    | none =>
      dsimp only
      by_cases hxa : x = a
      · subst hxa
        rw [Function.update_self, if_pos rfl]
      · rw [Function.update_of_ne hxa, if_neg hxa]
    | some j =>
      rw [if_neg]
      rintro rfl
      rw [ha] at hx
      cases hx

theorem marks_setMarked (hb : m.block? a = some b) : (m.setMarked a).marks = Function.update m.marks a true := by
  funext x
  unfold marks
  rw [block?_setMarked]
  by_cases hx : x = a
  · subst hx
    rw [Function.update_self, if_pos rfl, hb]
    rfl
  · rw [Function.update_of_ne hx, if_neg hx]

/-! ## Mark -/

/-- A set of live descriptors that the pointers do not leave. -/
structure Closed (m : GcMemory) (V : Addr → Prop) : Prop where
  ne_zero : ∀ a, V a → a ≠ 0
  block : ∀ a, V a → ∃ b, m.block? a = some b
  children : ∀ a, V a → ∀ c ∈ m.children a, V c

/-- A call of `tgc_mark` marks what is reached over unmarked descriptors and changes nothing else; and it returns when
`fuel` is more than the number of unmarked descriptors. -/
theorem tgcMark_within {m₀ : GcMemory} {V : Addr → Prop} (hV : m₀.Closed V) (fuel : Nat) (m : GcMemory) (a : Addr) (ha : V a)
    (hm : m.cleared = m₀.cleared) : (tgcMark fuel m a).Post (fun e => e = .fuel ∧ fuel ≤ unmarkedIn V m.marks)
      fun m' => m'.cleared = m₀.cleared ∧ Marked m₀.children [a] m.marks m'.marks := by
  induction fuel generalizing m a with
  | zero => exact ⟨rfl, Nat.zero_le _⟩
  | succ fuel ih =>
    obtain ⟨b₀, hb₀⟩ := hV.block a ha
    obtain ⟨v, hb⟩ := block?_congr hm hb₀
    unfold tgcMark
    rw [if_neg (hV.ne_zero a ha), hb]
    dsimp only
    have hmark : m.marks a = decide (v ≠ 0) := by
      unfold marks
      rw [hb]
      rfl
    split
    · rename_i hv
      exact ⟨hm, .seen (by rw [hmark, decide_eq_true hv])⟩
    · rename_i hv
      have hclear : m.marks a = false := by rw [hmark, decide_eq_false hv]
      have hm₁ : (m.setMarked a).cleared = m₀.cleared := (setMarked_cleared m a).trans hm
      have hfew := Marking.unmarkedIn_update ha hclear
      rw [← marks_setMarked hb] at hfew
      have hchildren : m.pointersOf { b₀ with marked := v } = m₀.children a := by
        rw [← children_congr hm]
        unfold children
        rw [hb]
      rw [hchildren]
      -- the children, each with one unmarked block fewer and less fuel
      have hloop : ((m₀.children a).foldlM (tgcMark fuel) (m.setMarked a)).Post
          (fun e => e = .fuel ∧ fuel ≤ unmarkedIn V (m.setMarked a).marks)
          fun m' => m'.cleared = m₀.cleared ∧
            Marked m₀.children ((m₀.children a).flatMap fun c => [c]) (m.setMarked a).marks m'.marks :=
        Marking.foldlM_post marks (fun m => m.cleared = m₀.cleared) (fun M (e : Stop Fault) => e = .fuel ∧ fuel ≤ unmarkedIn V M) _
          (fun M M' e hle he => ⟨he.1, Nat.le_trans he.2 (Marking.unmarkedIn_le hle)⟩) _ _ hm₁
          fun c hc m' hm' => ih m' c (hV.children a ha c hc) hm'
      refine hloop.mono (fun e he => ⟨he.1, Nat.lt_of_le_of_lt he.2 hfew⟩) ?_
      rintro m' ⟨hm', hmarked⟩
      refine ⟨hm', .node hclear ?_⟩
      rw [List.flatMap_singleton', marks_setMarked hb] at hmarked
      exact hmarked

/-- So it does when `fuel` is more than the number of unmarked addresses. -/
theorem tgcMark_post {m₀ : GcMemory} {V : Addr → Prop} (hV : m₀.Closed V) (fuel : Nat) (m : GcMemory) (a : Addr) (ha : V a)
    (hm : m.cleared = m₀.cleared) : (tgcMark fuel m a).Post (fun e => e = .fuel ∧ fuel ≤ unmarked m.marks)
      fun m' => m'.cleared = m₀.cleared ∧ Marked m₀.children [a] m.marks m'.marks :=
  (tgcMark_within hV fuel m a ha hm).mono (fun _ he => ⟨he.1, Nat.le_trans he.2 Marking.unmarkedIn_le_unmarked⟩)
    fun _ h => h

end GcMemory

/-! ## Sweep -/

/-- What a sweep leaves of an array whose slots are all written: a slot behind a deleted one is skipped. -/
def swept : List GcBlock → List GcBlock
  | [] => []
  | [b] => if b.marked ≠ 0 then [b.clear] else []
  | b :: next :: rest => if b.marked ≠ 0 then b.clear :: swept (next :: rest) else next :: swept rest

/-- The values that it frees: each time that of the slot behind the deleted one, if there is one. -/
def freed : List GcBlock → List Addr
  | [] => []
  | [b] => if b.marked ≠ 0 then [] else [b.value]
  | b :: next :: rest => if b.marked ≠ 0 then freed (next :: rest) else next.value :: freed rest

/-- A slot up to the `i`-th has no mark. -/
def Gap (bs : List GcBlock) (i : Nat) : Prop := ∃ j ≤ i, ∃ b, bs[j]? = some b ∧ b.marked = 0

section Swept

variable {bs : List GcBlock} {i : Nat} {v : Addr}

theorem Gap.zero_iff {b : GcBlock} {rest : List GcBlock} : Gap (b :: rest) 0 ↔ b.marked = 0 := by
  constructor
  · rintro ⟨j, hj, c, hc, hclear⟩
    obtain rfl : j = 0 := by omega
    cases hc
    exact hclear
  · intro hclear
    exact ⟨0, Nat.le_refl 0, b, rfl, hclear⟩

theorem Gap.succ_iff {b : GcBlock} {rest : List GcBlock} : Gap (b :: rest) (i + 1) ↔ b.marked = 0 ∨ Gap rest i := by
  constructor
  · rintro ⟨_ | j, hj, c, hc, hclear⟩
    · cases hc
      exact .inl hclear
    · exact .inr ⟨j, by omega, c, hc, hclear⟩
  · rintro (hclear | ⟨j, hj, c, hc, hclear⟩)
    · exact ⟨0, Nat.zero_le _, b, rfl, hclear⟩
    · exact ⟨j + 1, by omega, c, hc, hclear⟩

/-- Before the first slot without a mark the slots keep their places. -/
theorem swept_before (h : ¬ Gap bs i) : (swept bs)[i]? = bs[i]?.map GcBlock.clear := by
  fun_induction swept bs generalizing i with
  | case1 => rfl
  | case2 b hmarked =>
    cases i <;> rfl
  | case3 b hclear =>
    cases i with
    | zero => exact absurd (Gap.zero_iff.2 (Decidable.not_not.1 hclear)) h
    | succ i => rfl
  | case4 b next rest hmarked ih =>
    cases i with
    | zero => rfl
    | succ i => exact ih fun hgap => h (Gap.succ_iff.2 (.inr hgap))
  | case5 b next rest hclear ih =>
    refine absurd ?_ h
    exact ⟨0, Nat.zero_le _, b, rfl, Decidable.not_not.1 hclear⟩

/-- A slot is filled with what was there or behind it, and behind a slot without a mark only with what was behind it. -/
theorem swept_from {x : GcBlock} (hx : (swept bs)[i]? = some x) :
    ∃ j ≥ i, ∃ y, bs[j]? = some y ∧ x.value = y.value ∧ (Gap bs i → i < j) := by
  fun_induction swept bs generalizing i with
  | case1 => cases hx
  | case2 b hmarked =>
    cases i with
    | zero =>
      cases hx
      exact ⟨0, Nat.le_refl 0, b, rfl, rfl, fun hgap => absurd (Gap.zero_iff.1 hgap) hmarked⟩
    | succ i => cases hx
  | case3 b hclear => cases hx
  | case4 b next rest hmarked ih =>
    cases i with
    | zero =>
      cases hx
      exact ⟨0, Nat.le_refl 0, b, rfl, rfl, fun hgap => absurd (Gap.zero_iff.1 hgap) hmarked⟩
    | succ i =>
      obtain ⟨j, hj, y, hy, hvalue, hshift⟩ := ih hx
      refine ⟨j + 1, by omega, y, hy, hvalue, fun hgap => ?_⟩
      have := hshift ((Gap.succ_iff.1 hgap).resolve_left hmarked)
      omega
  | case5 b next rest hclear ih =>
    cases i with
    | zero =>
      cases hx
      exact ⟨1, by omega, _, rfl, rfl, fun _ => by omega⟩
    | succ i =>
      obtain ⟨j, hj, y, hy, hvalue, -⟩ := ih hx
      exact ⟨j + 2, by omega, y, hy, hvalue, fun _ => by omega⟩

/-- What is freed stood behind a slot without a mark, or there. -/
theorem freed_from (hv : v ∈ freed bs) : ∃ j b, bs[j]? = some b ∧ b.value = v ∧ Gap bs j := by
  fun_induction freed bs with
  | case1 => cases hv
  | case2 b hmarked => cases hv
  | case3 b hclear =>
    rw [List.mem_singleton.1 hv]
    exact ⟨0, b, rfl, rfl, Gap.zero_iff.2 (Decidable.not_not.1 hclear)⟩
  | case4 b next rest hmarked ih =>
    obtain ⟨j, c, hc, hvalue, hgap⟩ := ih hv
    exact ⟨j + 1, c, hc, hvalue, Gap.succ_iff.2 (.inr hgap)⟩
  | case5 b next rest hclear ih =>
    have hfirst (j : Nat) : Gap (b :: next :: rest) j := ⟨0, Nat.zero_le j, b, rfl, Decidable.not_not.1 hclear⟩
    rcases List.mem_cons.1 hv with hnext | hrest
    · exact ⟨1, next, rfl, hnext.symm, hfirst 1⟩
    · obtain ⟨j, c, hc, hvalue, -⟩ := ih hrest
      exact ⟨j + 2, c, hc, hvalue, hfirst _⟩

end Swept

/-- A value that is allocated. -/
def Allocated (values : List Region) (v : Addr) : Prop := v ≠ 0 ∧ ∃ r ∈ values, r.base = v

section Free

variable {values values' : List Region} {v w : Addr}

theorem free_allocated (h : tgcFree v values = .ok values') : Allocated values' w ↔ Allocated values w ∧ w ≠ v := by
  unfold tgcFree at h
  split at h
  · rename_i hzero
    cases h
    refine ⟨fun hw => ⟨hw, hzero ▸ hw.1⟩, fun hw => hw.1⟩
  · split at h
    · cases h
      constructor
      · rintro ⟨hne, r, hr, rfl⟩
        obtain ⟨hr, hkept⟩ := List.mem_filter.1 hr
        exact ⟨⟨hne, r, hr, rfl⟩, of_decide_eq_true hkept⟩
      · rintro ⟨⟨hne, r, hr, rfl⟩, hkept⟩
        exact ⟨hne, r, List.mem_filter.2 ⟨hr, decide_eq_true hkept⟩, rfl⟩
    · cases h

theorem free_ok (h : v = 0 ∨ Allocated values v) : ∃ values', tgcFree v values = .ok values' := by
  unfold tgcFree
  split
  · exact ⟨_, rfl⟩
  · rename_i hne
    obtain ⟨-, r, hr, hbase⟩ := h.resolve_left hne
    rw [if_pos (List.any_eq_true.2 ⟨r, hr, decide_eq_true hbase⟩)]
    exact ⟨_, rfl⟩

end Free

/-- The values of the blocks are their own, and freed by nobody yet. -/
structure OwnValues (values : List Region) (bs : List GcBlock) : Prop where
  distinct : bs.Pairwise fun b b' => b.value = b'.value → b.value = 0
  allocated : ∀ b ∈ bs, b.value = 0 ∨ Allocated values b.value

namespace OwnValues

variable {values values' : List Region} {b : GcBlock} {bs : List GcBlock}

theorem tail (h : OwnValues values (b :: bs)) : OwnValues values bs :=
  ⟨(List.pairwise_cons.1 h.distinct).2, fun c hc => h.allocated c (List.mem_cons_of_mem b hc)⟩

/-- The others keep their values when one is freed. -/
theorem free (h : OwnValues values (b :: bs)) (hfree : tgcFree b.value values = .ok values') : OwnValues values' bs := by
  refine ⟨h.tail.distinct, fun c hc => ?_⟩
  by_cases hzero : c.value = 0
  · exact .inl hzero
  · refine .inr ((free_allocated hfree).2 ⟨(h.tail.allocated c hc).resolve_left hzero, fun heq => hzero ?_⟩)
    rw [heq]
    exact (List.pairwise_cons.1 h.distinct).1 c hc heq.symm

end OwnValues

/-- What a sweep from some slot on leaves: the slots behind it are swept, their values freed. -/
structure SweptTo (m m' : GcMemory) (done rest : List GcBlock) : Prop where
  base : m'.heap.base = m.heap.base
  blocks : m'.heap.blocks = (done ++ swept rest).map some
  nested : m'.nested = m.nested
  values : ∀ v, Allocated m'.heap.values v ↔ Allocated m.heap.values v ∧ v ∉ freed rest

/-- What one turn leaves of the array and of the values. -/
structure Turned (m m' : GcMemory) (blocks : List GcBlock) (values : List Region) : Prop where
  base : m'.heap.base = m.heap.base
  blocks : m'.heap.blocks = blocks.map some
  nested : m'.nested = m.nested
  values : m'.heap.values = values

section Turn

variable {done rest : List GcBlock} {b next : GcBlock} {m : GcMemory} {values : List Region}

theorem slot_at (hm : m.heap.blocks = (done ++ b :: rest).map some) :
    done.length < m.heap.blocks.length ∧ (m.heap.blocks[done.length]?).join = some b := by
  rw [hm]
  simp

theorem sweepBody_marked (hm : m.heap.blocks = (done ++ b :: rest).map some) (hmarked : b.marked ≠ 0) :
    ∃ m', tgcSweepBody m done.length = .ok m' ∧ Turned m m' (done ++ b.clear :: rest) m.heap.values := by
  unfold tgcSweepBody
  rw [(slot_at hm).2]
  dsimp only
  rw [if_pos hmarked]
  refine ⟨_, rfl, rfl, ?_, rfl, rfl⟩
  show m.heap.blocks.set done.length (some b.clear) = _
  rw [hm]
  simp

theorem sweepBody_deleted (hm : m.heap.blocks = (done ++ b :: next :: rest).map some) (hclear : ¬ b.marked ≠ 0)
    (hfree : tgcFree next.value m.heap.values = .ok values) :
    ∃ m', tgcSweepBody m done.length = .ok m' ∧ Turned m m' (done ++ next :: rest) values := by
  have herase : m.heap.blocks.eraseIdx done.length = (done ++ next :: rest).map some := by
    rw [hm, List.map_append, List.eraseIdx_append_of_length_le (by simp)]
    simp
  have hnext : (((done ++ next :: rest).map some)[done.length]?).getD (some b) = some next := by simp
  unfold tgcSweepBody tgcDelete
  rw [(slot_at hm).2]
  dsimp only
  rw [if_neg hclear, herase, hnext]
  dsimp only
  rw [Except.bind_of_ok hfree]
  exact ⟨_, rfl, rfl, rfl, rfl, rfl⟩

/-- Behind the last slot lies what was copied from it, so that the value freed is the deleted one's. -/
theorem sweepBody_last (hm : m.heap.blocks = (done ++ [b]).map some) (hclear : ¬ b.marked ≠ 0)
    (hfree : tgcFree b.value m.heap.values = .ok values) :
    ∃ m', tgcSweepBody m done.length = .ok m' ∧ Turned m m' done values := by
  have herase : m.heap.blocks.eraseIdx done.length = done.map some := by
    rw [hm, List.map_append, List.eraseIdx_append_of_length_le (by simp)]
    simp
  have hnext : ((done.map some)[done.length]?).getD (some b) = some b := by simp
  unfold tgcSweepBody tgcDelete
  rw [(slot_at hm).2]
  dsimp only
  rw [if_neg hclear, herase, hnext]
  dsimp only
  rw [Except.bind_of_ok hfree]
  exact ⟨_, rfl, rfl, rfl, rfl, rfl⟩

end Turn

theorem tgcSweepFrom_turn {turns i : Nat} {m m₁ : GcMemory} (hi : i < m.heap.blocks.length)
    (hbody : tgcSweepBody m i = .ok m₁) : tgcSweepFrom (turns + 1) i m = tgcSweepFrom turns (i + 1) m₁ := by
  rw [tgcSweepFrom, if_pos hi, Except.bind_of_ok hbody]

theorem tgcSweepFrom_end {turns i : Nat} {m : GcMemory} (hi : m.heap.blocks.length ≤ i) : tgcSweepFrom turns i m = .ok m := by
  cases turns with
  | zero => rfl
  | succ turns => rw [tgcSweepFrom, if_neg (Nat.not_lt.2 hi)]

/-- The loop of `tgc_sweep`, with the slots it has passed as index of the invariant. -/
theorem sweepFrom_eq : ∀ (rest done : List GcBlock) (turns : Nat) (m : GcMemory),
    m.heap.blocks = (done ++ rest).map some → rest.length ≤ turns → OwnValues m.heap.values rest →
      ∃ m', tgcSweepFrom turns done.length m = .ok m' ∧ SweptTo m m' done rest
  | [], done, turns, m, hm, _, _ => by
    refine ⟨m, tgcSweepFrom_end (by rw [hm]; simp), rfl, hm, rfl, fun v => ?_⟩
    simp [freed]
  | b :: rest, done, 0, m, hm, hturns, _ => absurd hturns (by simp)
  | [b], done, turns + 1, m, hm, _, hown => by
    by_cases hmarked : b.marked ≠ 0
    · obtain ⟨m₁, hbody, hturn⟩ := sweepBody_marked hm hmarked
      have hend : m₁.heap.blocks.length ≤ done.length + 1 := by rw [hturn.blocks]; simp
      refine ⟨m₁, (tgcSweepFrom_turn (slot_at hm).1 hbody).trans (tgcSweepFrom_end hend), hturn.base, ?_, hturn.nested, ?_⟩
      · rw [hturn.blocks, swept, if_pos hmarked]
      · intro v
        rw [hturn.values, freed, if_pos hmarked]
        simp
    · obtain ⟨values, hfree⟩ := free_ok (hown.allocated b (List.mem_singleton_self b))
      obtain ⟨m₁, hbody, hturn⟩ := sweepBody_last hm hmarked hfree
      have hend : m₁.heap.blocks.length ≤ done.length + 1 := by rw [hturn.blocks]; simp
      refine ⟨m₁, (tgcSweepFrom_turn (slot_at hm).1 hbody).trans (tgcSweepFrom_end hend), hturn.base, ?_, hturn.nested, ?_⟩
      · rw [hturn.blocks, swept, if_neg hmarked, List.append_nil]
      · intro v
        rw [hturn.values, free_allocated hfree, freed, if_neg hmarked, List.mem_singleton]
  -- deleting a block moves the next one into its slot, which this turn then passes over
  | b :: next :: rest, done, turns + 1, m, hm, hturns, hown => by
    by_cases hmarked : b.marked ≠ 0
    · obtain ⟨m₁, hbody, hturn⟩ := sweepBody_marked hm hmarked
      rw [tgcSweepFrom_turn (slot_at hm).1 hbody, show done.length + 1 = (done ++ [b.clear]).length by simp]
      obtain ⟨m', hrun, hswept⟩ := sweepFrom_eq (next :: rest) (done ++ [b.clear]) turns m₁ (by rw [hturn.blocks]; simp)
        (Nat.le_of_succ_le_succ hturns) (by rw [hturn.values]; exact hown.tail)
      refine ⟨m', hrun, hswept.base.trans hturn.base, ?_, hswept.nested.trans hturn.nested, ?_⟩
      · rw [hswept.blocks, swept, if_pos hmarked, List.append_assoc]
        rfl
      · intro v
        rw [hswept.values, hturn.values, freed, if_pos hmarked]
    · obtain ⟨values, hfree⟩ := free_ok (hown.allocated next (List.mem_cons_of_mem _ (List.mem_cons_self ..)))
      obtain ⟨m₁, hbody, hturn⟩ := sweepBody_deleted hm hmarked hfree
      rw [tgcSweepFrom_turn (slot_at hm).1 hbody, show done.length + 1 = (done ++ [next]).length by simp]
      obtain ⟨m', hrun, hswept⟩ := sweepFrom_eq rest (done ++ [next]) turns m₁ (by rw [hturn.blocks]; simp)
        (by simp at hturns; omega) (by rw [hturn.values]; exact hown.tail.free hfree)
      refine ⟨m', hrun, hswept.base.trans hturn.base, ?_, hswept.nested.trans hturn.nested, ?_⟩
      · rw [hswept.blocks, swept, if_neg hmarked, List.append_assoc]
        rfl
      · intro v
        rw [hswept.values, hturn.values, free_allocated hfree, freed, if_neg hmarked, List.mem_cons, not_or, and_assoc]

/-- A turn that returns reads slot `i`, and keeps the slots behind it, or moves them down after reading the next one. -/
theorem sweepBody_reads {m m₁ : GcMemory} {i : Nat} (h : tgcSweepBody m i = .ok m₁) :
    (∃ b, m.heap.blocks[i]? = some (some b)) ∧
      ((m₁.heap.blocks.length = m.heap.blocks.length ∧ ∀ j, i < j → m₁.heap.blocks[j]? = m.heap.blocks[j]?) ∨
        (m₁.heap.blocks.length = m.heap.blocks.length - 1 ∧ (∀ j, i ≤ j → m₁.heap.blocks[j]? = m.heap.blocks[j + 1]?) ∧
          (i + 1 < m.heap.blocks.length → ∃ b, m.heap.blocks[i + 1]? = some (some b)))) := by
  unfold tgcSweepBody at h
  split at h
  · cases h
  · rename_i b hb
    have hb := Option.join_eq_some_iff.1 hb
    have hi : i < m.heap.blocks.length := (List.getElem?_eq_some_iff.1 hb).1
    refine ⟨⟨b, hb⟩, ?_⟩
    split at h
    · cases h
      exact .inl ⟨List.length_set, fun j hj => List.getElem?_set_ne (Nat.ne_of_lt hj)⟩
    · unfold tgcDelete at h
      dsimp only at h
      split at h
      · cases h
      · rename_i next hnext
        obtain ⟨values, -, h⟩ := Except.bind_ok h
        cases h
        refine .inr ⟨List.length_eraseIdx_of_lt hi, fun j hj => List.getElem?_eraseIdx_of_ge hj, fun hlt => ⟨next, ?_⟩⟩
        rw [List.getElem?_eraseIdx_of_ge (Nat.le_refl i), List.getElem?_eq_getElem hlt, Option.getD_some] at hnext
        rw [List.getElem?_eq_getElem hlt, hnext]

/-- A sweep that returns has read every slot. -/
theorem sweepFrom_written {turns i : Nat} {m m' : GcMemory} (h : tgcSweepFrom turns i m = .ok m')
    (hturns : m.heap.blocks.length ≤ i + turns) :
    ∀ j, i ≤ j → j < m.heap.blocks.length → ∃ b, m.heap.blocks[j]? = some (some b) := by
  induction turns generalizing i m with
  | zero =>
    intro j hij hj
    omega
  | succ turns ih =>
    intro j hij hj
    rw [tgcSweepFrom, if_pos (by omega)] at h
    obtain ⟨m₁, hbody, h⟩ := Except.bind_ok h
    obtain ⟨hread, ⟨hlen, hkept⟩ | ⟨hlen, hmoved, hnext⟩⟩ := sweepBody_reads hbody
    · by_cases hji : j = i
      · rw [hji]
        exact hread
      · rw [← hkept j (by omega)]
        exact ih h (by omega) j (by omega) (by omega)
    · rcases (show j = i ∨ j = i + 1 ∨ i + 1 < j by omega) with rfl | rfl | hlt
      · exact hread
      · exact hnext hj
      · have hprev := ih h (by omega) (j - 1) (by omega) (by omega)
        rw [hmoved (j - 1) (by omega), Nat.sub_add_cancel (by omega)] at hprev
        exact hprev

/-- What `tgc_sweep` does to an array whose slots are written. -/
theorem sweep_eq {m : GcMemory} {bs : List GcBlock} (hm : m.heap.blocks = bs.map some) (hown : OwnValues m.heap.values bs) :
    ∃ m', tgcSweep m = .ok m' ∧ SweptTo m m' [] bs :=
  sweepFrom_eq bs [] m.heap.blocks.length m hm (by rw [hm, List.length_map]) hown

theorem sweep_written {m m' : GcMemory} (h : tgcSweep m = .ok m') : ∃ bs : List GcBlock, m.heap.blocks = bs.map some := by
  have hall : ∀ s ∈ m.heap.blocks, s ∈ Set.range some := by
    intro s hs
    obtain ⟨j, hj, rfl⟩ := List.mem_iff_getElem.1 hs
    obtain ⟨b, hb⟩ := sweepFrom_written h (Nat.le_add_left ..) j (Nat.zero_le j) hj
    rw [List.getElem?_eq_getElem hj] at hb
    exact ⟨b, (Option.some.inj hb).symm⟩
  have hrange : m.heap.blocks ∈ Set.range (List.map some) := by
    rw [Set.range_list_map]
    exact hall
  obtain ⟨bs, hbs⟩ := hrange
  exact ⟨bs, hbs.symm⟩

end TileVm
