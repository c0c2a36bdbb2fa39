/-
Closed parts of a code. No move leads out of a closed part, so that a run that starts in it takes the
same steps whatever the code has beside it, and wherever the code ends.
-/
import TileVm.Lib.Activation

namespace Activation

open Except (Post)

variable {I K K' D L ε : Type}

/-- A move that does not go on behind its instruction. -/
def Move.Leaves : Move D L → Prop
  | .branch taken _ => taken = true
  | .ret _ | .halt _ => True
  | _ => False

/-- The points of `part` have their targets in it, and so they have the points behind them, except where the instruction never
goes on there. -/
structure Code.Closed (m : Meaning I D L ε) (c : Code I K ε) (part : K → Prop) : Prop where
  target : ∀ k k', part k → c.target k = some k' → part k'
  next : ∀ k, part k → part (c.next k) ∨
    ∃ i, c.fetch k = .ok i ∧ ∀ data locals, Post (fun _ => True) Move.Leaves (m.exec i data locals)

/-- The run is in the part, and comes back to it from every open call. -/
structure State.Within (part : K → Prop) (s : State K D L) : Prop where
  point : s.halted = false → part s.point
  calls : ∀ a ∈ s.calls, part a.1

section Closed

variable {m : Meaning I D L ε} {c : Code I K ε} {part : K → Prop} {s s' : State K D L}

/-- A move from a closed part stays in it. -/
theorem State.Within.move (h : s.Within part) (htarget : ∀ k, c.target s.point = some k → part k)
    {a : Move D L} (hnext : part (c.next s.point) ∨ a.Leaves) : Post (fun _ => True) (State.Within part) (s.move m c a) := by
  cases a with
  | next data locals =>
    rcases hnext with hnext | hleaves
    · exact ⟨fun _ => hnext, h.calls⟩
    · exact absurd hleaves id
  | branch taken data =>
    unfold State.move
    cases ht : c.target s.point with
    | none => trivial
    | some k =>
      refine ⟨fun _ => ?_, h.calls⟩
      cases taken with
      | true => exact htarget k ht
      | false =>
        rcases hnext with hnext | hleaves
        · exact hnext
        · cases hleaves
  | call data =>
    refine .ite (fun _ => trivial) fun _ => ?_
    rcases hnext with hnext | hleaves
    · cases ht : c.target s.point with
      | none => trivial
      | some k => exact ⟨fun _ => htarget k ht, List.forall_mem_cons.mpr ⟨hnext, h.calls⟩⟩
    · exact absurd hleaves id
  | ret data =>
    unfold State.move
    have hcalls := h.calls
    revert hcalls
    cases s.calls with
    | nil => exact fun _ => trivial
    | cons a calls =>
      intro hcalls
      exact ⟨fun _ => hcalls a List.mem_cons_self, fun b hb => hcalls b (List.mem_cons_of_mem _ hb)⟩
  | halt data =>
    refine ⟨fun hhalted => ?_, h.calls⟩
    cases hhalted

/-- So does a step. -/
theorem Code.Closed.step (hc : c.Closed m part) (h : s.Within part) (hs : s.halted = false) :
    Post (fun _ => True) (State.Within part) (Activation.step m c s) := by
  have hpoint := h.point hs
  unfold Activation.step
  refine Post.bind (Post.intro (fun _ _ => trivial) fun i hi => Post.bind (Post.intro (fun _ _ => trivial) fun a ha => ?_))
  refine h.move (fun k => hc.target _ k hpoint) ?_
  rcases hc.next _ hpoint with hnext | ⟨i', hi', hleaves⟩
  · exact .inl hnext
  · cases hi.symm.trans hi'
    exact .inr ((hleaves _ _).of_ok ha)

/-- A run in a closed part does not see where the code ends outside of it. -/
theorem Code.Closed.run_upTo (hc : c.Closed m part) {inside : K → Bool} (hin : ∀ k, part k → inside k = c.inside k) :
    ∀ (fuel : Nat) {s : State K D L}, s.Within part → run m (c.upTo inside) fuel s = run m c fuel s := by
  have hrunning {s : State K D L} (h : s.Within part) : s.running (c.upTo inside) = s.running c := by
    unfold State.running
    cases hs : s.halted with
    | true => rfl
    | false => rw [show (c.upTo inside).inside s.point = c.inside s.point from hin _ (h.point hs)]
  intro fuel
  induction fuel with
  | zero =>
    intro s h
    unfold run Loop.run
    rw [hrunning h]
  | succ fuel ih =>
    intro s h
    unfold run
    rw [Loop.run, Loop.run, hrunning h, step_upTo]
    by_cases hrun : s.running c = true
    · rw [if_pos hrun, if_pos hrun]
      have hhalted : s.halted = false := by
        unfold State.running at hrun
        simpa using (Bool.and_eq_true_iff.mp hrun).1
      cases hstep : Activation.step m c s with
      | error e => rfl
      | ok s' => exact ih ((hc.step h hhalted).of_ok hstep)
    · rw [if_neg hrun, if_neg hrun]

end Closed

end Activation
