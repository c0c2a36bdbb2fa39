/-
`tgc_sweep` against its purpose: the marked blocks stay, in order and unmarked, the values of the
others are freed, and the counter follows. The loop goes on behind the slot that the deletion has just
filled and frees the value of the block that has come to lie there, so it serves its purpose exactly
when the last block is the only one that may lack a mark.
-/
import TileVm.Vm.CollectSpec

namespace TileVm

variable {bs : List GcBlock} {b : GcBlock} {m m' : GcMemory}

/-! ## Purpose -/

/-- The blocks that a sweep is to keep. -/
def survivors (bs : List GcBlock) : List GcBlock := (bs.filter (·.marked ≠ 0)).map GcBlock.clear

/-- The values that it is to free. -/
def garbage (bs : List GcBlock) : List Addr := (bs.filter (·.marked = 0)).map (·.value)

/-- A sweep that has done what it is for. -/
structure SweptRight (m m' : GcMemory) (bs : List GcBlock) : Prop where
  blocks : m'.heap.blocks = (survivors bs).map some
  values : ∀ v, Allocated m'.heap.values v ↔ Allocated m.heap.values v ∧ v ∉ garbage bs
  count : m.heap.blockCount = m.heap.blocks.length → m'.heap.blockCount = m'.heap.blocks.length

theorem survivors_marked {rest : List GcBlock} (h : b.marked ≠ 0) : survivors (b :: rest) = b.clear :: survivors rest := by
  unfold survivors
  rw [List.filter_cons_of_pos (by simpa using h), List.map_cons]

theorem survivors_clear {rest : List GcBlock} (h : ¬ b.marked ≠ 0) : survivors (b :: rest) = survivors rest := by
  unfold survivors
  rw [List.filter_cons_of_neg (by simpa using h)]

theorem garbage_marked {rest : List GcBlock} (h : b.marked ≠ 0) : garbage (b :: rest) = garbage rest := by
  unfold garbage
  rw [List.filter_cons_of_neg (by simpa using h)]

theorem garbage_clear {rest : List GcBlock} (h : ¬ b.marked ≠ 0) : garbage (b :: rest) = b.value :: garbage rest := by
  unfold garbage
  rw [List.filter_cons_of_pos (by simpa using h), List.map_cons]

/-! ## What is left -/

/-- The sweep deletes no block too many; it may leave some. -/
theorem survivors_length (bs : List GcBlock) : (survivors bs).length ≤ (swept bs).length := by
  fun_induction swept bs with
  | case1 => exact Nat.le_refl _
  | case2 b hmarked => rw [survivors_marked hmarked]; exact Nat.le_refl _
  | case3 b hclear => rw [survivors_clear hclear]; exact Nat.le_refl _
  | case4 b next rest hmarked ih =>
    rw [survivors_marked hmarked]
    exact Nat.succ_le_succ ih
  | case5 b next rest hclear ih =>
    rw [survivors_clear hclear]
    by_cases hnext : next.marked ≠ 0
    · rw [survivors_marked hnext]
      exact Nat.succ_le_succ ih
    · rw [survivors_clear hnext]
      exact Nat.le_succ_of_le ih

/-- The blocks left are the right ones exactly when no block but the last is deleted. -/
theorem swept_eq_iff (bs : List GcBlock) : swept bs = survivors bs ↔ ∀ b ∈ bs.dropLast, b.marked ≠ 0 := by
  fun_induction swept bs with
  | case1 => simp [survivors]
  | case2 b hmarked =>
    have hkept : survivors [b] = [b.clear] := survivors_marked hmarked
    simp [hkept]
  | case3 b hclear =>
    have hnone : survivors [b] = [] := survivors_clear hclear
    simp [hnone]
  | case4 b next rest hmarked ih =>
    rw [survivors_marked hmarked, List.cons_inj_right, ih, List.dropLast_cons_cons, List.forall_mem_cons]
    exact (and_iff_right hmarked).symm
  | case5 b next rest hclear ih =>
    refine iff_of_false (fun heq => ?_) fun hall => hclear (hall b (by simp))
    rw [survivors_clear hclear] at heq
    by_cases hnext : next.marked ≠ 0
    · -- the block that has moved down is passed over, and keeps its mark
      rw [survivors_marked hnext] at heq
      have hkept : next = next.clear := (List.cons.inj heq).1
      exact hnext (congrArg GcBlock.marked hkept)
    · -- two blocks without a mark, and one deletion
      rw [survivors_clear hnext] at heq
      have hlen := congrArg List.length heq
      have := survivors_length rest
      rw [List.length_cons] at hlen
      omega

/-- Then the values freed are the right ones. -/
theorem freed_eq (h : ∀ b ∈ bs.dropLast, b.marked ≠ 0) : freed bs = garbage bs := by
  fun_induction freed bs with
  | case1 => rfl
  | case2 b hmarked => rw [garbage_marked hmarked]; rfl
  | case3 b hclear => rw [garbage_clear hclear]; rfl
  | case4 b next rest hmarked ih =>
    rw [garbage_marked hmarked]
    exact ih fun c hc => h c (by simp [hc])
  | case5 b next rest hclear ih => exact absurd (h b (by simp)) hclear

/-! ## The counter -/

/-- The counter, a `size_t`, is the number of slots. -/
def Counted (m : GcMemory) : Prop := m.heap.blockCount = m.heap.blocks.length ∧ m.heap.blockCount < 2 ^ 64

theorem sweepBody_counted {i : Nat} (h : Counted m) (hbody : tgcSweepBody m i = .ok m') : Counted m' := by
  unfold tgcSweepBody at hbody
  split at hbody
  · cases hbody
  · rename_i b hb
    have hi : i < m.heap.blocks.length := (List.getElem?_eq_some_iff.1 (Option.join_eq_some_iff.1 hb)).1
    obtain ⟨hcount, hsize⟩ := h
    split at hbody
    · cases hbody
      exact ⟨hcount.trans List.length_set.symm, hsize⟩
    · unfold tgcDelete at hbody
      dsimp only at hbody
      split at hbody
      · cases hbody
      · obtain ⟨values, -, hbody⟩ := Except.bind_ok hbody
        cases hbody
        have hdecrement : (m.heap.blockCount + 2 ^ 64 - 1) % 2 ^ 64 = m.heap.blocks.length - 1 := by omega
        refine ⟨hdecrement.trans (List.length_eraseIdx_of_lt hi).symm, ?_⟩
        exact Nat.mod_lt _ (by decide)

theorem sweepFrom_counted {turns i : Nat} (h : Counted m) (hrun : tgcSweepFrom turns i m = .ok m') : Counted m' := by
  induction turns generalizing i m with
  | zero =>
    cases hrun
    exact h
  | succ turns ih =>
    rw [tgcSweepFrom] at hrun
    split at hrun
    · obtain ⟨m₁, hbody, hrun⟩ := Except.bind_ok hrun
      exact ih (sweepBody_counted h hbody) hrun
    · cases hrun
      exact h

/-! ## The sweep -/

/-- A sweep of blocks with values of their own returns, and has done what it is for if and only if every block but the
last was marked. -/
theorem sweep_right_iff {m : GcMemory} {bs : List GcBlock} (hm : m.heap.blocks = bs.map some)
    (hown : OwnValues m.heap.values bs) (hsize : m.heap.blockCount < 2 ^ 64) :
    (∃ m', tgcSweep m = .ok m' ∧ SweptRight m m' bs) ↔ ∀ b ∈ bs.dropLast, b.marked ≠ 0 := by
  obtain ⟨m', hrun, hswept⟩ := sweep_eq hm hown
  constructor
  · rintro ⟨m₁, hrun₁, hright⟩
    cases hrun.symm.trans hrun₁
    have hblocks : (swept bs).map some = (survivors bs).map some := hswept.blocks.symm.trans hright.blocks
    exact (swept_eq_iff bs).1 (List.map_injective_iff.2 (Option.some_injective _) hblocks)
  · intro hall
    refine ⟨m', hrun, ?_, fun v => ?_, fun hcount => ?_⟩
    · rw [hswept.blocks, List.nil_append, (swept_eq_iff bs).2 hall]
    · rw [hswept.values, freed_eq hall]
    · exact (sweepFrom_counted ⟨hcount, hsize⟩ hrun).1

/-! ## Two heaps -/

/-- A block of 8 bytes at `value`, with or without a mark. -/
def blockAt (value : Addr) (marked : BitVec 64) : GcBlock := ⟨value, 0, 8, 0, marked⟩

/-- A heap of such blocks and their values. -/
def heapOf (bs : List GcBlock) : GcMemory :=
  { heap := ⟨bs.map some, 4096, 4, bs.length, bs.map fun b => ⟨b.value, List.replicate 8 0⟩⟩
    nested := fun _ => none
    arrlen := fun _ => 0
    out := [] }

/-- Blocks made with values that `malloc` keeps apart own them. -/
theorem heapOf_own (hdistinct : (bs.map (·.value)).Nodup) (hvalue : ∀ b ∈ bs, b.value ≠ 0) :
    OwnValues (heapOf bs).heap.values bs where
  distinct := by
    apply (List.pairwise_map.1 hdistinct).imp
    exact fun hne heq => absurd heq hne
  allocated b hb := .inr ⟨hvalue b hb, ⟨b.value, List.replicate 8 0⟩, List.mem_map.2 ⟨b, hb, rfl⟩, rfl⟩

/-- A marked block, and one without a mark behind it. -/
theorem sweep_right_last : ∃ m', tgcSweep (heapOf [blockAt 64 1, blockAt 128 0]) = .ok m' ∧
    SweptRight (heapOf [blockAt 64 1, blockAt 128 0]) m' [blockAt 64 1, blockAt 128 0] := by
  have hown : OwnValues (heapOf [blockAt 64 1, blockAt 128 0]).heap.values _ := heapOf_own (by decide) (by decide)
  exact (sweep_right_iff rfl hown (by decide)).2 (by decide)

/-- The other way round: the mark stays, and it is the marked block whose value is freed. -/
theorem sweep_frees_marked : ∃ m', tgcSweep (heapOf [blockAt 64 0, blockAt 128 1]) = .ok m' ∧
    ¬ SweptRight (heapOf [blockAt 64 0, blockAt 128 1]) m' [blockAt 64 0, blockAt 128 1] ∧
      m'.heap.blocks = [some (blockAt 128 1)] ∧ ¬ Allocated m'.heap.values 128 ∧ Allocated m'.heap.values 64 := by
  have hown : OwnValues (heapOf [blockAt 64 0, blockAt 128 1]).heap.values _ := heapOf_own (by decide) (by decide)
  obtain ⟨m', hrun, hswept⟩ := sweep_eq rfl hown
  have hbefore : Allocated (heapOf [blockAt 64 0, blockAt 128 1]).heap.values 64 :=
    (hown.allocated (blockAt 64 0) (by simp)).resolve_left (by decide)
  refine ⟨m', hrun, fun hright => ?_, hswept.blocks, fun hfreed => ?_, (hswept.values 64).2 ⟨hbefore, by decide⟩⟩
  · exact ((hright.values 64).1 ((hswept.values 64).2 ⟨hbefore, by decide⟩)).2 (by decide)
  · exact ((hswept.values 128).1 hfreed).2 (by decide)

end TileVm
