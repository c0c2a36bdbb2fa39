/-
Codes that go forward only: the point behind an instruction and its target have a lower rank. Such a
code may call procedures, but every run of it comes to an end, after at most 3 to the rank of its
start steps: a call trades one point for two of lower rank.
-/
import Mathlib.Algebra.Order.Ring.Nat
import TileVm.Lib.Activation

namespace Activation

variable {I K D L ε : Type}

/-- Wherever there is an instruction, the points that it names are of lower rank. -/
structure Code.Forward (c : Code I K ε) (rank : K → Nat) : Prop where
  next : ∀ k i, c.inside k = true → c.fetch k = .ok i → rank (c.next k) < rank k
  target : ∀ k k' i, c.inside k = true → c.fetch k = .ok i → c.target k = some k' → rank k' < rank k

/-- 3 to the rank of the point, and of those behind the open calls. -/
def State.weight (rank : K → Nat) (s : State K D L) : Nat :=
  3 ^ rank s.point + (s.calls.map fun a => 3 ^ rank a.1).sum

section Forward

variable {m : Meaning I D L ε} {c : Code I K ε} {rank : K → Nat} {s s' : State K D L}

theorem weight_pos (s : State K D L) : 0 < s.weight rank := Nat.add_pos_left (Nat.pow_pos (by decide)) _

theorem pow_rank_lt {k k' : K} (h : rank k' < rank k) : 3 ^ rank k' < 3 ^ rank k :=
  Nat.pow_lt_pow_right (by decide) h

/-- Two points of lower rank weigh less than one. -/
theorem pow_rank_add_lt {k k₁ k₂ : K} (h₁ : rank k₁ < rank k) (h₂ : rank k₂ < rank k) :
    3 ^ rank k₁ + 3 ^ rank k₂ < 3 ^ rank k := by
  obtain ⟨r, hr⟩ : ∃ r, rank k = r + 1 := Nat.exists_eq_succ_of_ne_zero (by omega)
  have hle₁ : 3 ^ rank k₁ ≤ 3 ^ r := Nat.pow_le_pow_right (by decide) (by omega)
  have hle₂ : 3 ^ rank k₂ ≤ 3 ^ r := Nat.pow_le_pow_right (by decide) (by omega)
  have hpos : 0 < 3 ^ r := Nat.pow_pos (by decide)
  rw [hr, Nat.pow_succ]
  omega

/-- Every move makes the state lighter. -/
theorem Code.Forward.move (hf : c.Forward rank) {i : I} (hs : c.inside s.point = true) (hi : c.fetch s.point = .ok i)
    {a : Move D L} (h : s.move m c a = .ok s') : s'.weight rank < s.weight rank := by
  have hnext := hf.next _ _ hs hi
  cases a with
  | next data locals | halt data =>
    cases h
    exact Nat.add_lt_add_right (pow_rank_lt hnext) _
  | branch taken data =>
    cases ht : c.target s.point with
    | none =>
      simp only [State.move, ht] at h
      cases h
    | some k =>
      simp only [State.move, ht] at h
      cases h
      refine Nat.add_lt_add_right (pow_rank_lt ?_) _
      cases taken
      · exact hnext
      · exact hf.target _ _ _ hs hi ht
  | call data =>
    simp only [State.move] at h
    split at h
    · cases h
    · cases ht : c.target s.point with
      | none =>
        rw [ht] at h
        cases h
      | some k =>
        rw [ht] at h
        cases h
        have hlt := pow_rank_add_lt (hf.target _ _ _ hs hi ht) hnext
        simp only [State.weight, List.map_cons, List.sum_cons]
        omega
  | ret data =>
    simp only [State.move] at h
    cases hcalls : s.calls with
    | nil =>
      rw [hcalls] at h
      cases h
    | cons a calls =>
      rw [hcalls] at h
      cases h
      have hpos : 0 < 3 ^ rank s.point := Nat.pow_pos (by decide)
      simp only [State.weight, hcalls, List.map_cons, List.sum_cons]
      omega

theorem Code.Forward.step (hf : c.Forward rank) (hs : c.inside s.point = true) (h : step m c s = .ok s') :
    s'.weight rank < s.weight rank := by
  obtain ⟨i, hi, h⟩ := Except.bind_ok h
  obtain ⟨a, -, h⟩ := Except.bind_ok h
  exact hf.move hs hi h

/-- The weight is fuel enough. -/
theorem Code.Forward.run_ends (hf : c.Forward rank) {fuel : Nat} (h : s.weight rank ≤ fuel) :
    run m c fuel s ≠ .error .fuel := by
  have hpos : 0 < s.weight rank := weight_pos s
  refine Loop.run_halts (fun _ => True) (fun s => s.weight rank - 1) ?_ fuel s trivial (by omega)
  intro s _ hs
  constructor
  · cases Activation.step m c s <;> exact fun h => nomatch h
  · intro s' h
    have hlt := hf.step (m := m) (inside_of_running hs) (Except.mapError_eq_ok.mp h)
    have hpos : 0 < s'.weight rank := weight_pos s'
    exact ⟨trivial, by omega⟩

end Forward

end Activation
