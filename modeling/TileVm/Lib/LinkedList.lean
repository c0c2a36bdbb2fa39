/-
Doubly linked lists in a memory. A segment is a list of nodes each of which links to the node before it
and to the one behind it; what holds of a segment holds of its parts and of their concatenation, and
only the links of its own nodes matter.
-/
import Mathlib.Data.List.Basic

namespace LinkedList

variable {α : Type} {links links' : α → Option (α × α)} {p q x : α} {xs ys : List α}

/-- The nodes `xs` in a row: the first one links back to `p` and the last one on to `q`. `links` are the links of a node, back
and on. -/
def Segment (links : α → Option (α × α)) : α → List α → α → Prop
  | _, [], _ => True
  | p, x :: xs, q => links x = some (p, xs.headD q) ∧ Segment links x xs q

theorem segment_append : Segment links p (xs ++ ys) q ↔
    Segment links p xs (ys.headD q) ∧ Segment links (xs.getLastD p) ys q := by
  induction xs generalizing p with
  | nil => simp [Segment]
  | cons x xs ih =>
    have hlast : (x :: xs).getLastD p = xs.getLastD x := by
      cases xs <;> rfl
    have hhead : (xs ++ ys).headD q = xs.headD (ys.headD q) := by
      cases xs <;> rfl
    rw [List.cons_append, Segment, Segment, ih, hlast, hhead, and_assoc]

theorem segment_singleton : Segment links p [x] q ↔ links x = some (p, q) := by
  simp [Segment]

/-- Other nodes do not matter. -/
theorem Segment.congr (h : Segment links p xs q) (hsame : ∀ x ∈ xs, links' x = links x) : Segment links' p xs q := by
  induction xs generalizing p with
  | nil => trivial
  | cons x xs ih =>
    rw [List.forall_mem_cons] at hsame
    exact ⟨hsame.1.trans h.1, ih h.2 hsame.2⟩

end LinkedList
