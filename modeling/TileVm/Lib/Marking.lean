/-
Marking a graph depth first. A marking call takes the marks `M` to `M'` for a list of roots; the rules
are the steps of such a procedure (a marked node is left, an unmarked one is marked and its children
after it), and what it marks is determined: the nodes on paths of unmarked nodes from the roots.
-/
import Mathlib.Data.Set.Card
import Mathlib.Logic.Relation
import TileVm.Lib.Post

namespace Marking

open Relation (ReflTransGen)

variable {α : Type} {children : α → List α} {M M₁ M' : α → Bool} {a x y : α} {as bs : List α}

/-- `x` is reached from `a` over nodes without a mark, both ends included. -/
structure White (children : α → List α) (M : α → Bool) (a x : α) : Prop where
  root : M a = false
  path : ReflTransGen (fun y z => z ∈ children y ∧ M z = false) a x

namespace White

theorem refl (h : M a = false) : White children M a a := ⟨h, .refl⟩

theorem unmarked (h : White children M a x) : M x = false := by
  cases h.path with
  | refl => exact h.root
  | tail _ hstep => exact hstep.2

theorem child (ha : M a = false) (hy : y ∈ children a) (h : White children M y x) : White children M a x :=
  ⟨ha, .head ⟨hy, h.root⟩ h.path⟩

/-- A path that avoids more marks avoids fewer. -/
theorem anti (hle : ∀ z, M z = true → M' z = true) (h : White children M' a x) : White children M a x := by
  have hfalse (z : α) (hz : M' z = false) : M z = false := by
    cases hM : M z with
    | false => rfl
    | true => rw [hle z hM] at hz; cases hz
  exact ⟨hfalse a h.root, ReflTransGen.mono (fun _ z hstep => ⟨hstep.1, hfalse z hstep.2⟩) a x h.path⟩

end White

/-- `M'` is what marking from the roots `as` makes of `M`. -/
structure Marked (children : α → List α) (as : List α) (M M' : α → Bool) : Prop where
  grows : ∀ x, M x = true → M' x = true
  roots : ∀ a ∈ as, M' a = true
  closed : ∀ x, M x = false → M' x = true → ∀ y ∈ children x, M' y = true
  sound : ∀ x, M x = false → M' x = true → ∃ a ∈ as, White children M a x

namespace Marked

/-! ## Rules -/

theorem nil : Marked children [] M M where
  grows _ h := h
  roots _ h := nomatch h
  closed x h h' := by rw [h] at h'; cases h'
  sound x h h' := by rw [h] at h'; cases h'

/-- A marked root is left alone. -/
theorem seen (h : M a = true) : Marked children [a] M M where
  grows _ h := h
  roots x hx := by rw [List.mem_singleton.1 hx]; exact h
  closed x h h' := by rw [h] at h'; cases h'
  sound x h h' := by rw [h] at h'; cases h'

/-- An unmarked root is marked, and its children after it. -/
theorem node [DecidableEq α] (ha : M a = false) (h : Marked children (children a) (Function.update M a true) M') :
    Marked children [a] M M' where
  grows x hx := by
    apply h.grows
    by_cases heq : x = a
    · rw [heq, Function.update_self]
    · rw [Function.update_of_ne heq, hx]
  roots x hx := by
    rw [List.mem_singleton.1 hx]
    exact h.grows a (Function.update_self ..)
  closed x hx hx' := by
    by_cases heq : x = a
    · subst heq
      exact h.roots
    · exact h.closed x (by rw [Function.update_of_ne heq, hx]) hx'
  sound x hx hx' := by
    refine ⟨a, List.mem_singleton_self a, ?_⟩
    by_cases heq : x = a
    · rw [heq]
      exact .refl ha
    · obtain ⟨c, hc, hwhite⟩ := h.sound x (by rw [Function.update_of_ne heq, hx]) hx'
      refine .child ha hc (hwhite.anti fun z hz => ?_)
      by_cases hza : z = a
      · rw [hza, Function.update_self]
      · rw [Function.update_of_ne hza, hz]

/-- One list of roots after another. -/
theorem append (h : Marked children as M M₁) (h' : Marked children bs M₁ M') : Marked children (as ++ bs) M M' where
  grows x hx := h'.grows x (h.grows x hx)
  roots a ha := by
    rcases List.mem_append.1 ha with ha | ha
    · exact h'.grows a (h.roots a ha)
    · exact h'.roots a ha
  closed x hx hx' y hy := by
    cases h₁ : M₁ x with
    | true => exact h'.grows y (h.closed x hx h₁ y hy)
    | false => exact h'.closed x h₁ hx' y hy
  sound x hx hx' := by
    cases h₁ : M₁ x with
    | true =>
      obtain ⟨a, ha, hwhite⟩ := h.sound x hx h₁
      exact ⟨a, List.mem_append_left _ ha, hwhite⟩
    | false =>
      obtain ⟨a, ha, hwhite⟩ := h'.sound x h₁ hx'
      exact ⟨a, List.mem_append_right _ ha, hwhite.anti h.grows⟩

theorem cons (h : Marked children [a] M M₁) (h' : Marked children bs M₁ M') : Marked children (a :: bs) M M' :=
  h.append h'

/-! ## What is marked -/

theorem mark_of_white (h : Marked children as M M') (ha : a ∈ as) (hwhite : White children M a x) : M' x = true := by
  obtain ⟨hroot, hpath⟩ := hwhite
  induction hpath with
  | refl => exact h.roots a ha
  | @tail y z hay hstep ih => exact h.closed y (White.unmarked ⟨hroot, hay⟩) ih z hstep.1

/-- A node has a mark afterwards if it had one or is reached from a root over unmarked nodes. -/
theorem mark_iff (h : Marked children as M M') (x : α) : M' x = true ↔ M x = true ∨ ∃ a ∈ as, White children M a x := by
  constructor
  · intro hx
    cases hM : M x with
    | true => exact .inl rfl
    | false => exact .inr (h.sound x hM hx)
  · rintro (hx | ⟨a, ha, hwhite⟩)
    · exact h.grows x hx
    · exact h.mark_of_white ha hwhite

end Marked

/-! ## Marking in a state -/

/-- The rule for a loop that marks from some roots in every turn, over states that carry the marks. -/
theorem foldlM_post {σ β ε : Type} {f : σ → β → Except ε σ} (marks : σ → α → Bool) (I : σ → Prop)
    (E : (α → Bool) → ε → Prop) (roots : β → List α)
    (hE : ∀ M M' e, (∀ x, M x = true → M' x = true) → E M' e → E M e) (l : List β) (s : σ) (hs : I s)
    (hf : ∀ b ∈ l, ∀ s, I s →
      (f s b).Post (E (marks s)) fun s' => I s' ∧ Marked children (roots b) (marks s) (marks s')) :
    (l.foldlM f s).Post (E (marks s)) fun s' => I s' ∧ Marked children (l.flatMap roots) (marks s) (marks s') := by
  induction l generalizing s with
  | nil => exact ⟨hs, .nil⟩
  | cons b l ih =>
    rw [List.foldlM_cons]
    refine Except.Post.bind ((hf b (List.mem_cons_self ..) s hs).mono (fun _ he => he) ?_)
    rintro s₁ ⟨hs₁, hmarked⟩
    have ih := ih s₁ hs₁ fun b' hb' => hf b' (List.mem_cons_of_mem _ hb')
    refine ih.mono (fun e he => hE _ _ e hmarked.grows he) ?_
    rintro s' ⟨hs', hrest⟩
    rw [List.flatMap_cons]
    exact ⟨hs', hmarked.append hrest⟩

/-! ## Termination -/

section Fuel

variable [Finite α] {V : α → Prop}

/-- The number of nodes without a mark: it bounds the depth of a marking call. -/
noncomputable def unmarked (M : α → Bool) : Nat := {x | M x = false}.ncard

/-- The number of nodes without a mark in a set that the call does not leave. -/
noncomputable def unmarkedIn (V : α → Prop) (M : α → Bool) : Nat := {x | V x ∧ M x = false}.ncard

theorem unmarked_le (h : ∀ x, M x = true → M' x = true) : unmarked M' ≤ unmarked M := by
  apply Set.ncard_le_ncard _ (Set.toFinite _)
  intro x hx
  cases hM : M x with
  | false => exact hM
  | true => exact absurd ((h x hM).symm.trans hx) (by decide)

theorem unmarkedIn_le (h : ∀ x, M x = true → M' x = true) : unmarkedIn V M' ≤ unmarkedIn V M := by
  apply Set.ncard_le_ncard _ (Set.toFinite _)
  rintro x ⟨hV, hx⟩
  refine ⟨hV, ?_⟩
  cases hM : M x with
  | false => rfl
  | true => exact absurd ((h x hM).symm.trans hx) (by decide)

theorem unmarkedIn_le_unmarked : unmarkedIn V M ≤ unmarked M :=
  Set.ncard_le_ncard (fun _ hx => hx.2) (Set.toFinite _)

theorem unmarkedIn_update [DecidableEq α] (hV : V a) (h : M a = false) :
    unmarkedIn V (Function.update M a true) < unmarkedIn V M := by
  apply Set.ncard_lt_ncard _ (Set.toFinite _)
  constructor
  · rintro x ⟨hVx, hx⟩
    refine ⟨hVx, ?_⟩
    by_cases heq : x = a
    · rw [heq]
      exact h
    · rw [Function.update_of_ne heq] at hx
      exact hx
  · intro hsub
    have ha : Function.update M a true a = false := (hsub ⟨hV, h⟩).2
    rw [Function.update_self] at ha
    cases ha

end Fuel

end Marking
