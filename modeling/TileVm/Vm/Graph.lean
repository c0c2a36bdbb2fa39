/-
`tgc_mark` over a graph of descriptors: the recursion ends however the `pointers` arrays share
descriptors or run in circles, and the new marks are those of the descriptors that are reached over
unmarked ones.
-/
import TileVm.Vm.CollectSpec

namespace TileVm

open Except (Post)
open Relation (ReflTransGen)
open Marking (White unmarkedIn)

variable {m m' : GcMemory} {V : Addr → Prop} {root : Addr} {fuel : Nat}

/-- What a call of `tgc_mark` does: a descriptor has a mark afterwards if it had one or is reached from the root over
descriptors without one, both ends included, and nothing but marks has changed. -/
structure MarksReached (m m' : GcMemory) (root : Addr) : Prop where
  marks : ∀ a, m'.marks a = true ↔ m.marks a = true ∨ root ≠ 0 ∧ White m.children m.marks root a
  unmarked : (∀ a, m.marks a = false) →
    ∀ a, m'.marks a = true ↔ root ≠ 0 ∧ ReflTransGen (fun x y => y ∈ m.children x) root a
  rest : m'.cleared = m.cleared

/-- Without marks every path is one over unmarked descriptors. -/
theorem white_of_clear (h : ∀ a, m.marks a = false) (a : Addr) :
    White m.children m.marks root a ↔ ReflTransGen (fun x y => y ∈ m.children x) root a := by
  constructor
  · rintro ⟨-, hpath⟩
    exact ReflTransGen.mono (fun _ _ hstep => hstep.1) root a hpath
  · intro hpath
    exact ⟨h root, ReflTransGen.mono (fun _ y hstep => ⟨hstep, h y⟩) root a hpath⟩

theorem MarksReached.of_marks (hrest : m'.cleared = m.cleared)
    (hmarks : ∀ a, m'.marks a = true ↔ m.marks a = true ∨ root ≠ 0 ∧ White m.children m.marks root a) :
    MarksReached m m' root where
  marks := hmarks
  unmarked hclear a := by
    rw [hmarks, hclear, white_of_clear hclear]
    simp
  rest := hrest

/-- For every graph of descriptors, marked or not, and every root in it, or `NULL`: the recursion is at most one call deeper
than there are unmarked descriptors, and it marks what is reached. -/
theorem mark_reached (hV : m.Closed V) (hroot : root = 0 ∨ V root) (hfuel : unmarkedIn V m.marks < fuel) :
    ∃ m', tgcMark fuel m root = .ok m' ∧ MarksReached m m' root := by
  rcases Decidable.em (root = 0) with rfl | hne
  · obtain ⟨fuel, rfl⟩ := Nat.exists_eq_succ_of_ne_zero (Nat.ne_zero_of_lt hfuel)
    refine ⟨m, if_pos rfl, .of_marks rfl fun a => ?_⟩
    simp
  · have hmark := GcMemory.tgcMark_within hV fuel m root (hroot.resolve_left hne) rfl
    cases hrun : tgcMark fuel m root with
    | error e =>
      rw [hrun] at hmark
      exact absurd hmark.2 (Nat.not_le_of_lt hfuel)
    | ok m' =>
      rw [hrun] at hmark
      obtain ⟨hrest, hmarked⟩ := hmark
      refine ⟨m', rfl, .of_marks hrest fun a => ?_⟩
      rw [hmarked.mark_iff, and_iff_right hne]
      simp only [List.mem_singleton, exists_eq_left]

/-- Two blocks of `__heap`, each of them the `pointers` array of the other. -/
def ring : GcMemory where
  heap := ⟨[some ⟨512, 1, 8, 168, 0⟩, some ⟨528, 1, 8, 128, 0⟩], 128, 2, 2, []⟩
  nested := fun _ => none
  arrlen := fun _ => 1
  out := []

/-- Its two addresses. -/
def OnRing (a : Addr) : Prop := a = 128 ∨ a = 168

theorem ring_closed : ring.Closed OnRing where
  ne_zero a ha := by
    rcases ha with rfl | rfl <;> decide
  block a ha := by
    rcases ha with rfl | rfl
    · exact ⟨_, rfl⟩
    · exact ⟨_, rfl⟩
  children a ha c hc := by
    have hfirst : ring.children 128 = [168] := rfl
    have hsecond : ring.children 168 = [128] := rfl
    rcases ha with rfl | rfl
    · rw [hfirst] at hc
      exact .inr (List.mem_singleton.1 hc)
    · rw [hsecond] at hc
      exact .inl (List.mem_singleton.1 hc)

theorem ring_unmarked : unmarkedIn OnRing ring.marks ≤ 2 := by
  have hsub : {a | OnRing a ∧ ring.marks a = false} ⊆ ({128, 168} : Set Addr) := fun a ha => ha.1
  exact (Set.ncard_le_ncard hsub (Set.toFinite _)).trans (Set.ncard_insert_le _ _ |>.trans (by rw [Set.ncard_singleton]))

theorem mark_reached_ring : ∃ m', tgcMark 3 ring 128 = .ok m' ∧ MarksReached ring m' 128 :=
  mark_reached ring_closed (.inr (.inl rfl)) (Nat.lt_succ_of_le ring_unmarked)

end TileVm
