/-
Proof outlines for codes with activations: a contract for each procedure, under logical variables,
and an assertion at each point. A contract is used where the procedure is called, in its own body,
too. What the outline says of the moves of single instructions holds of every run.
-/
import TileVm.Lib.Activation

namespace Activation

open Except (Post)

variable {I K D L ε G : Type}

/-- Contracts and assertions. A point stands in the procedure that starts at its owner, or in the main part. The height of an
activation is the number of calls that are open in it. -/
structure Outline (G K D L ε : Type) where
  height : G → Nat → Prop
  pre : K → G → D → Prop
  post : K → G → D → Prop
  holds : Option K → K → G → D → L → Prop
  final : D → Prop
  fails : ε → Prop

namespace Outline

/-- What is to be shown of a move from the point `k` of the procedure `owner`, at the height `h`. -/
def MoveOk (o : Outline G K D L ε) (m : Meaning I D L ε) (c : Code I K ε) (owner : Option K) (k : K) (g : G) (h : Nat)
    (locals : L) : Move D L → Prop
  | .next data locals => o.holds owner (c.next k) g data locals
  | .branch taken data =>
    match c.target k with
    | none => o.fails m.noTarget
    | some k' => o.holds owner (if taken then k' else c.next k) g data locals
  | .call data =>
    if m.maxCalls ≤ h then o.fails m.tooDeep
    else
      match c.target k with
      | none => o.fails m.noTarget
      | some k' => ∃ g', o.height g' (h + 1) ∧ o.pre k' g' data ∧
          ∀ data, o.post k' g' data → o.holds owner (c.next k) g data locals
  | .ret data =>
    match owner with
    | none => o.fails m.noCall
    | some k₀ => o.post k₀ g data
  | .halt data => o.final data

/-- The outline is right: procedures start as their contracts say, and so does every instruction go on. -/
structure Verifies (o : Outline G K D L ε) (m : Meaning I D L ε) (c : Code I K ε) : Prop where
  entry : ∀ k g data, o.pre k g data → o.holds (some k) k g data m.fresh
  move : ∀ owner k g h data locals, o.height g h → o.holds owner k g data locals → c.inside k = true →
    Post o.fails (fun i => Post o.fails (o.MoveOk m c owner k g h locals) (m.exec i data locals)) (c.fetch k)

/-- Every open call waits for the postcondition of the procedure above it. -/
inductive Waits (o : Outline G K D L ε) : Option K → G → List (K × L) → Prop where
  | main (g : G) : Waits o none g []
  | call {owner : Option K} {g g₀ : G} {k₀ k : K} {locals : L} {calls : List (K × L)} (height : o.height g calls.length)
      (returns : ∀ data, o.post k₀ g₀ data → o.holds owner k g data locals) (below : Waits o owner g calls) :
      Waits o (some k₀) g₀ ((k, locals) :: calls)

/-- A state that the outline speaks of. -/
inductive Meets (o : Outline G K D L ε) (s : State K D L) : Prop where
  | running {owner : Option K} {g : G} (height : o.height g s.calls.length) (here : o.holds owner s.point g s.data s.locals)
      (below : o.Waits owner g s.calls) (halted : s.halted = false)
  | halted (halted : s.halted = true) (final : o.final s.data)

/-- Where a run that comes to its end has come to: an instruction that halts, or a point outside of the code. -/
def Ends (o : Outline G K D L ε) (c : Code I K ε) (data : D) : Prop :=
  o.final data ∨ ∃ owner k g locals, c.inside k = false ∧ o.holds owner k g data locals

section Sound

variable {o : Outline G K D L ε} {m : Meaning I D L ε} {c : Code I K ε} {s : State K D L}

/-- A move that is right leads to a state that the outline speaks of. -/
theorem MoveOk.meets (ho : o.Verifies m c) {owner : Option K} {g : G} (height : o.height g s.calls.length)
    (below : o.Waits owner g s.calls) (hs : s.halted = false) {a : Move D L}
    (h : o.MoveOk m c owner s.point g s.calls.length s.locals a) : Post o.fails o.Meets (s.move m c a) := by
  cases a with
  | next data locals => exact .running height h below hs
  | halt data => exact .halted rfl h
  | branch taken data =>
    simp only [MoveOk, State.move] at h ⊢
    cases htarget : c.target s.point with
    | none =>
      rw [htarget] at h
      exact h
    | some k =>
      rw [htarget] at h
      exact Meets.running height h below hs
  | call data =>
    simp only [MoveOk, State.move] at h ⊢
    by_cases hdeep : m.maxCalls ≤ s.calls.length
    · rw [if_pos hdeep] at h ⊢
      exact h
    · rw [if_neg hdeep] at h ⊢
      cases htarget : c.target s.point with
      | none =>
        rw [htarget] at h
        exact h
      | some k =>
        rw [htarget] at h
        obtain ⟨g', hheight, hpre, hpost⟩ := h
        exact Meets.running hheight (ho.entry _ g' data hpre) (.call height hpost below) hs
  | ret data =>
    unfold State.move
    revert h below
    cases s.calls with
    | nil =>
      intro below h
      cases below
      exact h
    | cons a calls =>
      intro below h
      cases below with
      | call height returns below => exact .running height (returns data h) below hs

/-- A step leads to a state that the outline speaks of, or fails as it allows. -/
theorem Verifies.step (ho : o.Verifies m c) (h : o.Meets s) (hrun : s.running c = true) :
    Post o.fails o.Meets (Activation.step m c s) := by
  have hin := inside_of_running hrun
  cases h with
  | halted halted =>
    unfold State.running at hrun
    rw [halted] at hrun
    cases hrun
  | running height here below halted =>
    unfold Activation.step
    refine Post.bind ((ho.move _ _ _ _ _ _ height here hin).mono (fun _ h => h) fun i hi => ?_)
    exact Post.bind (hi.mono (fun _ h => h) fun a ha => ha.meets ho height below halted)

/-- Every run ends as the outline says, or fails as it allows, or goes on. -/
theorem Verifies.run (ho : o.Verifies m c) (h : o.Meets s) (fuel : Nat) :
    Post (fun e => ∀ x, e = .fault x → o.fails x) (fun s => o.Ends c s.data) (Activation.run m c fuel s) := by
  refine (Loop.run_post (I := o.Meets) (fun x hx => by cases hx) ?_ fuel s h).mono (fun _ h => h) fun s hs => ?_
  · intro s hs hrun
    have hstep := ho.step hs hrun
    refine Post.intro (fun e he x hx => ?_) fun s' hs' => hstep.of_ok (Except.mapError_eq_ok.mp hs')
    subst hx
    cases hx : Activation.step m c s with
    | ok s' => rw [hx] at he; cases he
    | error x' =>
      rw [hx] at he
      cases he
      exact hstep.of_error hx
  · obtain ⟨hmeets, hend⟩ := hs
    cases hmeets with
    | halted halted final => exact .inl final
    | @running owner g height here below halted =>
      unfold State.running at hend
      rw [halted] at hend
      exact .inr ⟨owner, s.point, g, s.locals, hend, here⟩

end Sound

end Outline

end Activation
