/-
Straight-line stack code that only adds. Run on sums of names, it says which operands end up
added in which slot; every machine that runs it on numbers is an image of that run.
-/
import Mathlib.Algebra.FreeMonoid.Basic

/-- An instruction. -/
inductive StackOp (α : Type) where
  | nop
  | push (a : α)
  | pop
  | add
deriving DecidableEq, Repr

namespace StackOp

variable {α β M N : Type}

/-- The instruction with its operand replaced. -/
def map (f : α → β) : StackOp α → StackOp β
  | .nop => .nop
  | .push a => .push (f a)
  | .pop => .pop
  | .add => .add

/-- The effect on a stack, its top first; `none` when an operand is missing. -/
def exec [Add M] : StackOp M → List M → Option (List M)
  | .nop, s => some s
  | .push a, s => some (a :: s)
  | .pop, _ :: s => some s
  | .add, b :: a :: s => some ((a + b) :: s)
  | _, _ => none

/-- The effect of a code. -/
def execAll [Add M] (ops : List (StackOp M)) (s : List M) : Option (List M) := ops.foldlM (fun s op => op.exec s) s

@[simp] theorem execAll_nil [Add M] (s : List M) : execAll [] s = some s := rfl

@[simp] theorem execAll_cons [Add M] (op : StackOp M) (ops : List (StackOp M)) (s : List M) :
    execAll (op :: ops) s = (op.exec s).bind (execAll ops) := rfl

theorem execAll_append [Add M] (ops ops' : List (StackOp M)) (s : List M) :
    execAll (ops ++ ops') s = (execAll ops s).bind (execAll ops') :=
  List.foldlM_append ..

/-- One more instruction. -/
theorem execAll_snoc [Add M] (ops : List (StackOp M)) (op : StackOp M) (s : List M) :
    execAll (ops ++ [op]) s = (execAll ops s).bind op.exec := by
  rw [execAll_append]
  congr 1
  funext s
  rw [execAll_cons]
  cases op.exec s <;> rfl

/-! ## Images -/

@[simp] theorem map_map {γ : Type} (g : β → γ) (f : α → β) (op : StackOp α) : (op.map f).map g = op.map (g ∘ f) := by
  cases op <;> rfl

/-- Two valuations that agree on the operands make the same code. -/
theorem map_congr {f g : α → β} (ops : List (StackOp α)) (h : ∀ a, .push a ∈ ops → f a = g a) :
    ops.map (map f) = ops.map (map g) := by
  refine List.map_congr_left fun op hop => ?_
  cases op with
  | push a => exact congrArg StackOp.push (h a hop)
  | nop | pop | add => rfl

section Images

variable [Add M] [Add N] {φ : M → N} (hφ : ∀ a b, φ (a + b) = φ a + φ b)

include hφ

theorem exec_map (op : StackOp M) (s : List M) : (op.map φ).exec (s.map φ) = (op.exec s).map (List.map φ) := by
  cases op with
  | nop | push => rfl
  | pop => cases s <;> rfl
  | add =>
    rcases s with _ | ⟨b, _ | ⟨a, s⟩⟩
    · rfl
    · rfl
    · simp [exec, map, hφ]

/-- A map that respects addition takes runs to runs. -/
theorem execAll_map (ops : List (StackOp M)) (s : List M) :
    execAll (ops.map (map φ)) (s.map φ) = (execAll ops s).map (List.map φ) := by
  induction ops generalizing s with
  | nil => rfl
  | cons op ops ih =>
    rw [List.map_cons, execAll_cons, execAll_cons, exec_map hφ]
    cases op.exec s with
    | none => rfl
    | some s' => exact ih s'

end Images

/-! ## Names -/

/-- The operands that are added up in each slot, in the order of the additions. -/
def slots (ops : List (StackOp α)) : Option (List (FreeAddMonoid α)) := execAll (ops.map (map FreeAddMonoid.of)) []

variable [AddMonoid M] {ops : List (StackOp α)} {sums : List (FreeAddMonoid α)}

/-- A run on the values of the operands is the run on their names, evaluated. -/
theorem execAll_eq_lift (f : α → M) (ops : List (StackOp α)) :
    execAll (ops.map (map f)) [] = (slots ops).map (List.map (FreeAddMonoid.lift f)) := by
  have himage := execAll_map (map_add (FreeAddMonoid.lift f)) (ops.map (map FreeAddMonoid.of)) []
  rw [slots, ← himage, List.map_map]
  congr 2
  funext op
  cases op with
  | push a => simp [map]
  | nop | pop | add => rfl

/-- Two valuations agree on the final stack exactly when they agree on the sum in each slot. -/
theorem execAll_eq_iff (f g : α → M) (hsums : slots ops = some sums) :
    execAll (ops.map (map f)) [] = execAll (ops.map (map g)) [] ↔
      ∀ x ∈ sums, FreeAddMonoid.lift f x = FreeAddMonoid.lift g x := by
  rw [execAll_eq_lift, execAll_eq_lift, hsums, Option.map_some, Option.map_some, Option.some.injEq]
  exact List.map_inj_left

/-- The length of the final stack does not depend on the valuation. -/
theorem length_execAll {N : Type} [AddMonoid N] {f : α → M} {g : α → N} {s : List M} {s' : List N}
    (hs : execAll (ops.map (map f)) [] = some s) (hs' : execAll (ops.map (map g)) [] = some s') : s.length = s'.length := by
  rw [execAll_eq_lift] at hs hs'
  obtain ⟨sums, hsums, rfl⟩ := Option.map_eq_some_iff.1 hs
  rw [hsums, Option.map_some] at hs'
  cases hs'
  rw [List.length_map, List.length_map]

/-! ## Differences -/

variable {G : Type} [AddCommGroup G]

theorem lift_sub (f g : α → G) (x : FreeAddMonoid α) :
    FreeAddMonoid.lift (fun a => f a - g a) x = FreeAddMonoid.lift f x - FreeAddMonoid.lift g x := by
  induction x using FreeAddMonoid.inductionOn' with
  | zero => simp
  | of_add a x ih =>
    rw [map_add, map_add, map_add, ih, FreeAddMonoid.lift_eval_of, FreeAddMonoid.lift_eval_of, FreeAddMonoid.lift_eval_of]
    exact (add_sub_add_comm ..).symm

/-- In a group they agree exactly when their differences cancel in each slot. -/
theorem execAll_eq_iff_cancel (f g : α → G) (hsums : slots ops = some sums) :
    execAll (ops.map (map f)) [] = execAll (ops.map (map g)) [] ↔
      ∀ x ∈ sums, FreeAddMonoid.lift (fun a => f a - g a) x = 0 := by
  rw [execAll_eq_iff f g hsums]
  refine forall₂_congr fun x _ => ?_
  rw [lift_sub, sub_eq_zero]

end StackOp
