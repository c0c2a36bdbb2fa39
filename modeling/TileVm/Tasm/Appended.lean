/-
More code behind a document. Where every jump and call has an instruction to go to, and the last
instruction does not go on behind itself, the run never leaves the document; what stands behind it is
never run.
-/
import Mathlib.Data.List.Infix
import TileVm.Lib.Closed
import TileVm.Tasm.Source

namespace TileVm

open Activation
open Except (Post)

variable {W : Type} {items rest extra after : List Item} {i : SourceInst} {n : Nat}

/-! ## Points of the longer document -/

theorem nextInst_append (h : 0 < instCount rest) :
    nextInst (rest ++ extra) = (nextInst rest).map fun r => (r.1, r.2 ++ extra) := by
  induction rest with
  | nil => exact absurd h (Nat.lt_irrefl 0)
  | cons j rest ih =>
    cases j with
    | inst => rfl
    | label | proc | metadata => exact ih (by simpa [Item.size] using h)

theorem behind_append {d : Item → Bool} (h : behind d items = some rest) :
    behind d (items ++ extra) = some (rest ++ extra) ∧ rest <:+ items := by
  induction items with
  | nil => cases h
  | cons j items ih =>
    simp only [List.cons_append, behind] at h ⊢
    split at h
    · rename_i hj
      cases h
      rw [if_pos hj]
      exact ⟨rfl, List.suffix_cons ..⟩
    · rename_i hj
      obtain ⟨heq, hsuffix⟩ := ih h
      rw [if_neg hj]
      exact ⟨heq, hsuffix.trans (List.suffix_cons ..)⟩

theorem fromInst_append (h : 0 < instCount (fromInst n items)) :
    fromInst n (items ++ extra) = fromInst n items ++ extra ∧ fromInst n items <:+ items := by
  induction items generalizing n with
  | nil => cases n <;> exact absurd h (Nat.lt_irrefl 0)
  | cons j items ih =>
    cases j with
    | inst scope o operand =>
      cases n with
      | zero => exact ⟨rfl, List.suffix_refl _⟩
      | succ n =>
        obtain ⟨heq, hsuffix⟩ := ih h
        exact ⟨heq, hsuffix.trans (List.suffix_cons ..)⟩
    | label | proc | metadata =>
      obtain ⟨heq, hsuffix⟩ := ih h
      exact ⟨heq, hsuffix.trans (List.suffix_cons ..)⟩

/-- An instruction without a target has none in any document. -/
theorem target_none (h : ¬ i.op.takesTarget = true) : i.target items = none := by
  unfold SourceInst.target
  exact if_neg h

/-- A target stays where it is. -/
theorem target_append (h : i.target items = some rest) :
    i.target (items ++ extra) = some (rest ++ extra) ∧ rest <:+ items ∧ 0 < instCount rest := by
  by_cases ho : i.op.takesTarget = true
  · unfold SourceInst.target at h ⊢
    rw [if_pos ho] at h ⊢
    obtain ⟨hpoint, hpos⟩ := Option.filter_eq_some_iff.mp h
    have hpos : 0 < instCount rest := of_decide_eq_true hpos
    -- the point moves with the document, whatever names it
    have hmoved (point point' : Option (List Item)) (hp : point = some rest)
        (hp' : point = some rest → point' = some (rest ++ extra) ∧ rest <:+ items) :
        point'.filter (fun rest => decide (0 < instCount rest)) = some (rest ++ extra) ∧ rest <:+ items ∧
          0 < instCount rest := by
      obtain ⟨heq, hsuffix⟩ := hp' hp
      refine ⟨?_, hsuffix, hpos⟩
      rw [heq, Option.filter_some, if_pos]
      exact decide_eq_true (by rw [instCount_append]; omega)
    refine hmoved _ _ hpoint fun hp => ?_
    split at hp
    · by_cases hcall : i.op = OpType.call
      · rw [if_pos hcall] at hp ⊢
        exact behind_append hp
      · rw [if_neg hcall] at hp ⊢
        exact behind_append hp
    · obtain rfl := Option.some.inj hp
      have hmove : fromInst _ (items ++ extra) = _ ∧ _ := fromInst_append hpos
      exact ⟨congrArg some hmove.1, hmove.2⟩
    · cases hp
  · rw [target_none ho] at h
    cases h

/-! ## Closed documents -/

/-- The instructions that never go on behind themselves. -/
def OpType.leaves : OpType → Bool
  | .jmp | .ret | .halt => true
  | _ => false

/-- The instruction at the head of `rest` has its target, and an instruction behind it if it goes on there. -/
def closedAt (items : List Item) : List Item → Bool
  | .inst scope o operand :: rest =>
    (!o.takesTarget || (SourceInst.target items ⟨scope, o, operand⟩).isSome) && (decide (0 < instCount rest) || o.leaves)
  | _ => true

/-- A document whose run never leaves it. -/
structure ClosedDocument (items : List Item) : Prop where
  start : 0 < instCount items
  insts : ∀ rest ∈ items.tails, closedAt items rest = true

section Closed

variable {env : Env W} {tables : ProgramTables}

/-- What the instruction at a point has. -/
theorem ClosedDocument.inst (h : ClosedDocument items) (hs : rest <:+ items) (hpos : 0 < instCount rest) : ∃ i after,
    nextInst rest = some (i, after) ∧ after <:+ items ∧ (i.op.takesTarget = true → (i.target items).isSome = true) ∧
      (0 < instCount after ∨ i.op.leaves = true) := by
  obtain ⟨skip, i, after, hnext, rfl, -⟩ := nextInst_split hpos
  have hinst : .inst i.scope i.op i.operand :: after <:+ items := (List.suffix_append ..).trans hs
  have hclosed := h.insts _ ((List.mem_tails _ _).mpr hinst)
  simp only [closedAt, Bool.and_eq_true, Bool.or_eq_true, Bool.not_eq_true', decide_eq_true_eq] at hclosed
  refine ⟨i, after, hnext, (List.suffix_cons ..).trans hinst, fun ho => ?_, hclosed.2⟩
  rcases hclosed.1 with hnot | hsome
  · rw [hnot] at ho
    cases ho
  · exact hsome

/-- The two documents have the same code in front of what was appended. -/
theorem append_corresponds (h : ClosedDocument items) (extra : List Item) : (sourceCode items).Corresponds
    (fun rest rest' => rest' = rest ++ extra ∧ rest <:+ items)
    ((sourceCode (items ++ extra)).upTo fun rest' => decide (instCount extra < instCount rest')) := by
  constructor
  · exact ⟨rfl, List.suffix_refl _⟩
  · rintro rest _ ⟨rfl, -⟩
    simp [sourceCode]
  · rintro rest _ ⟨rfl, hs⟩ hin
    have hpos : 0 < instCount rest := of_decide_eq_true hin
    obtain ⟨i, after, hnext, -⟩ := h.inst hs hpos
    simp only [sourceCode, nextInst_append hpos, hnext, Option.map_some]
  · rintro rest _ ⟨rfl, hs⟩ hin
    have hpos : 0 < instCount rest := of_decide_eq_true hin
    obtain ⟨i, after, hnext, -, htarget, -⟩ := h.inst hs hpos
    simp only [sourceCode, nextInst_append hpos, hnext, Option.map_some, Option.bind_some]
    by_cases ho : i.op.takesTarget = true
    · obtain ⟨point, hpoint⟩ := Option.isSome_iff_exists.mp (htarget ho)
      obtain ⟨heq, hsuffix, -⟩ : i.target (items ++ extra) = _ ∧ _ := target_append hpoint
      rw [hpoint, heq]
      exact .some ⟨rfl, hsuffix⟩
    · rw [target_none ho, target_none ho]
      exact .none
  · rintro rest _ ⟨rfl, hs⟩ hin
    have hpos : 0 < instCount rest := of_decide_eq_true hin
    obtain ⟨i, after, hnext, hsuffix, -⟩ := h.inst hs hpos
    simp only [sourceCode, nextInst_append hpos, hnext, Option.map_some]
    exact ⟨trivial, hsuffix⟩

theorem opcode_type (i : SourceInst) : i.opcode.type = i.op.code := by
  unfold SourceInst.opcode
  split
  · rfl
  · split <;> rfl

/-- An instruction that never goes on behind itself does not. -/
theorem leaves_move {inst : Opcode} {op : OpType} (htype : inst.type = op.code) (hop : op.leaves = true) (d : Data W)
    (l : Locals) : Post (fun _ => True) Move.Leaves (tvmMove env tables inst d l) := by
  unfold tvmMove
  rw [htype, OpType.ofNat?_code]
  cases op <;> first | exact rfl | exact trivial | cases hop

/-- The points with an instruction of the shorter document. -/
def WithinItems (items extra rest' : List Item) : Prop := ∃ rest, rest' = rest ++ extra ∧ rest <:+ items ∧ 0 < instCount rest

/-- The shorter document is a closed part of the longer one. -/
theorem append_closed (h : ClosedDocument items) : (sourceCode (items ++ extra)).Closed (tvmMeaning env tables)
    (WithinItems items extra) := by
  constructor
  · rintro _ point ⟨rest, rfl, hs, hpos⟩ hpoint
    obtain ⟨i, after, hnext, -, htarget, -⟩ := h.inst hs hpos
    simp only [sourceCode, nextInst_append hpos, hnext, Option.map_some, Option.bind_some] at hpoint
    by_cases ho : i.op.takesTarget = true
    · obtain ⟨point', hpoint'⟩ := Option.isSome_iff_exists.mp (htarget ho)
      obtain ⟨heq, hsuffix, hpos'⟩ : i.target (items ++ extra) = _ ∧ _ := target_append hpoint'
      cases heq.symm.trans hpoint
      exact ⟨point', rfl, hsuffix, hpos'⟩
    · rw [target_none ho] at hpoint
      cases hpoint
  · rintro _ ⟨rest, rfl, hs, hpos⟩
    obtain ⟨i, after, hnext, hsuffix, -, hgo⟩ := h.inst hs hpos
    simp only [sourceCode, nextInst_append hpos, hnext, Option.map_some]
    rcases hgo with hgo | hleaves
    · exact .inl ⟨after, rfl, hsuffix, hgo⟩
    · exact .inr ⟨i.opcode, rfl, leaves_move (opcode_type i) hleaves⟩

/-- What is appended to a closed document is never run. -/
theorem sourceRun_append (h : ClosedDocument items) (env : Env W) (tables : ProgramTables) (world : W) (fuel : Nat) :
    sourceRun env tables (items ++ extra) world fuel = sourceRun env tables items world fuel := by
  have hin (rest' : List Item) (hrest : WithinItems items extra rest') :
      decide (instCount extra < instCount rest') = (sourceCode (items ++ extra)).inside rest' := by
    obtain ⟨rest, rfl, -, hpos⟩ := hrest
    simp only [sourceCode, instCount_append]
    rw [decide_eq_true (by omega), decide_eq_true (by omega)]
  have hwithin : (Activation.init (tvmMeaning env tables) (sourceCode (items ++ extra)) (Data.initial world)).Within
      (WithinItems items extra) :=
    ⟨fun _ => ⟨items, rfl, List.suffix_refl _, h.start⟩, fun a ha => by cases ha⟩
  have hsame := run_data (m := tvmMeaning env tables) (append_corresponds h extra) fuel (Data.initial world)
  unfold sourceRun
  rw [← (append_closed h).run_upTo hin fuel hwithin]
  exact hsame

end Closed

end TileVm
