/-
Machines with activations. An instruction works on the data and on the local variables of the
procedure that runs, and says where to go on; the machine keeps the point in the code and, for each
open call, the point behind it and the variables of the caller. What a point is, is left open, so
that two codes whose points correspond have the same runs.
-/
import Mathlib.Data.List.Forall2
import TileVm.Lib.Relate

namespace Activation

/-! ## Codes and machines -/

/-- Where an instruction goes on, and what it leaves. -/
inductive Move (D L : Type) where
  | next (data : D) (locals : L)
  | branch (taken : Bool) (data : D)
  | call (data : D)
  | ret (data : D)
  | halt (data : D)

/-- What instructions mean: their moves, the variables of a procedure that is called, and how the
machine stops at a call too many, for want of a target, and at a return from no call. -/
structure Meaning (I D L ε : Type) where
  exec : I → D → L → Except ε (Move D L)
  fresh : L
  maxCalls : Nat
  tooDeep : ε
  noTarget : ε
  noCall : ε

/-- A code over the points `K`. -/
structure Code (I K ε : Type) where
  start : K
  inside : K → Bool
  fetch : K → Except ε I
  target : K → Option K
  next : K → K

structure State (K D L : Type) where
  point : K
  calls : List (K × L)
  locals : L
  data : D
  halted : Bool

variable {I K K' D L ε : Type}

/-- The state after a move. -/
def State.move (m : Meaning I D L ε) (c : Code I K ε) (s : State K D L) : Move D L → Except ε (State K D L)
  | .next data locals => .ok { s with point := c.next s.point, data, locals }
  | .branch taken data =>
    match c.target s.point with
    | none => .error m.noTarget
    | some k => .ok { s with point := if taken then k else c.next s.point, data }
  | .call data =>
    if m.maxCalls ≤ s.calls.length then .error m.tooDeep
    else
      match c.target s.point with
      | none => .error m.noTarget
      | some k => .ok { s with point := k, calls := (c.next s.point, s.locals) :: s.calls, locals := m.fresh, data }
  | .ret data =>
    match s.calls with
    | [] => .error m.noCall
    | (k, locals) :: calls => .ok { s with point := k, calls, locals, data }
  | .halt data => .ok { s with point := c.next s.point, data, halted := true }

/-- One step. -/
def step (m : Meaning I D L ε) (c : Code I K ε) (s : State K D L) : Except ε (State K D L) := do
  let i ← c.fetch s.point
  let move ← m.exec i s.data s.locals
  s.move m c move

/-- The machine is running. -/
def State.running (c : Code I K ε) (s : State K D L) : Bool := !s.halted && c.inside s.point

/-- At most `fuel` steps. -/
def run (m : Meaning I D L ε) (c : Code I K ε) (fuel : Nat) (s : State K D L) : Except (Stop ε) (State K D L) :=
  Loop.run (State.running c) (fun s => (step m c s).mapError .fault) fuel s

/-- The state before the first step. -/
def init (m : Meaning I D L ε) (c : Code I K ε) (data : D) : State K D L := ⟨c.start, [], m.fresh, data, false⟩

/-! ## Corresponding codes -/

/-- The points of `c'` that `R` relates to points of `c` carry the same code. -/
structure Code.Corresponds (R : K → K' → Prop) (c : Code I K ε) (c' : Code I K' ε) : Prop where
  start : R c.start c'.start
  inside : ∀ k k', R k k' → c'.inside k' = c.inside k
  fetch : ∀ k k', R k k' → c.inside k = true → c'.fetch k' = c.fetch k
  target : ∀ k k', R k k' → c.inside k = true → Option.Rel R (c.target k) (c'.target k')
  next : ∀ k k', R k k' → c.inside k = true → R (c.next k) (c'.next k')

/-- The same state, at points in relation `R`. -/
structure State.Same (R : K → K' → Prop) (s : State K D L) (s' : State K' D L) : Prop where
  point : R s.point s'.point
  calls : List.Forall₂ (fun a b => R a.1 b.1 ∧ b.2 = a.2) s.calls s'.calls
  locals : s'.locals = s.locals
  data : s'.data = s.data
  halted : s'.halted = s.halted

section Corresponding

open Except (Follows)

variable {m : Meaning I D L ε} {R : K → K' → Prop} {c : Code I K ε} {c' : Code I K' ε} {s : State K D L}
  {s' : State K' D L}

theorem State.Same.running (hc : c.Corresponds R c') (h : s.Same R s') : s'.running c' = s.running c := by
  unfold State.running
  rw [h.halted, hc.inside _ _ h.point]

theorem inside_of_running (h : s.running c = true) : c.inside s.point = true := by
  unfold State.running at h
  exact (Bool.and_eq_true_iff.mp h).2

/-- The same move leads to the same state. -/
theorem State.Same.move (hc : c.Corresponds R c') (h : s.Same R s') (hs : c.inside s.point = true) (a : Move D L) :
    Follows True (fun _ => True) (State.Same R) (s.move m c a) (s'.move m c' a) := by
  have hnext := hc.next _ _ h.point hs
  have htarget := hc.target _ _ h.point hs
  cases a with
  | next data locals => exact .ok fun _ => ⟨hnext, h.calls, rfl, rfl, h.halted⟩
  | branch taken data =>
    simp only [State.move]
    revert htarget
    cases c.target s.point <;> cases c'.target s'.point <;> intro htarget <;> cases htarget
    · exact .error _
    · rename_i hk
      refine .ok fun _ => ⟨?_, h.calls, h.locals, rfl, h.halted⟩
      cases taken
      · exact hnext
      · exact hk
  | call data =>
    simp only [State.move, h.calls.length_eq.symm]
    refine .ite Iff.rfl (fun _ => .error _) fun _ => ?_
    revert htarget
    cases c.target s.point <;> cases c'.target s'.point <;> intro htarget <;> cases htarget
    · exact .error _
    · rename_i hk
      exact .ok fun _ => ⟨hk, .cons ⟨hnext, h.locals⟩ h.calls, rfl, rfl, h.halted⟩
  | ret data =>
    simp only [State.move]
    have hcalls := h.calls
    revert hcalls
    cases s.calls <;> cases s'.calls <;> intro hcalls <;> cases hcalls
    · exact .error _
    · rename_i hk hcalls
      exact .ok fun _ => ⟨hk.1, hcalls, hk.2, rfl, h.halted⟩
  | halt data => exact .ok fun _ => ⟨hnext, h.calls, h.locals, rfl, rfl⟩

theorem State.Same.step (hc : c.Corresponds R c') (h : s.Same R s') (hs : c.inside s.point = true) :
    Follows True (fun _ => True) (State.Same R) (step m c s) (step m c' s') := by
  unfold Activation.step
  rw [h.data, h.locals, hc.fetch _ _ h.point hs]
  exact .bind_same rfl fun i _ => .bind_same rfl fun a _ => h.move hc hs a

/-- A computation followed by another is followed by it under other names of the errors. -/
theorem follows_mapError {ε' α α' : Type} {S : α → Prop} {Q : α → α' → Prop} {x : Except ε α} {y : Except ε α'}
    (f : ε → ε') (h : Follows True S Q x y) : Follows True S Q (x.mapError f) (y.mapError f) := by
  constructor
  · intro a ha hs
    obtain ⟨b, rfl, hab⟩ := h.result a (Except.mapError_eq_ok.mp ha) hs
    exact ⟨b, rfl, hab⟩
  · intro _ e he
    cases x with
    | ok a => cases he
    | error d =>
      cases he
      rw [h.fault trivial d rfl]
      rfl

/-- Runs of corresponding codes take the same steps. -/
theorem run_corresponds (hc : c.Corresponds R c') (fuel : Nat) (h : s.Same R s') :
    Follows True (fun _ => True) (State.Same R) (run m c fuel s) (run m c' fuel s') := by
  refine (Follows.loop (I := State.Same R) (fun s s' h => h.running hc) ?_ fuel s s' h).mono (fun _ h => h) fun _ _ h => h.1
  intro s s' h hs
  exact follows_mapError _ (h.step hc (inside_of_running hs))

theorem State.Same.init (hc : c.Corresponds R c') (m : Meaning I D L ε) (data : D) :
    (Activation.init m c data).Same R (Activation.init m c' data) :=
  ⟨hc.start, .nil, rfl, rfl, rfl⟩

/-- Corresponding codes leave the same data, or fail alike. -/
theorem run_data (hc : c.Corresponds R c') (fuel : Nat) (data : D) :
    (run m c' fuel (init m c' data)).map (·.data) = (run m c fuel (init m c data)).map (·.data) := by
  have h := run_corresponds (m := m) hc fuel (.init hc m data)
  cases hx : run m c fuel (init m c data) with
  | error e =>
    rw [h.fault trivial e hx]
    rfl
  | ok s =>
    obtain ⟨s', hs', hsame⟩ := h.result s hx trivial
    rw [hs']
    exact congrArg Except.ok hsame.data

end Corresponding

/-! ## Outcomes -/

/-- With enough fuel the computation comes to `r`. -/
def Comes {α : Type} (x : Nat → Except (Stop ε) α) (r : Except ε α) : Prop := ∃ fuel, x fuel = r.mapError .fault

/-- What a computation comes to under a function is the image of what it comes to. -/
theorem comes_map {α β : Type} {x : Nat → Except (Stop ε) α} {f : α → β} {r : Except ε β} :
    Comes (fun fuel => (x fuel).map f) r ↔ ∃ r', Comes x r' ∧ r = r'.map f := by
  constructor
  · rintro ⟨fuel, h⟩
    dsimp only at h
    cases hx : x fuel with
    | ok a =>
      rw [hx] at h
      cases r with
      | error e => cases h
      | ok b =>
        cases h
        exact ⟨.ok a, ⟨fuel, hx⟩, rfl⟩
    | error e =>
      rw [hx] at h
      cases r with
      | error e => cases h; exact ⟨.error e, ⟨fuel, hx⟩, rfl⟩
      | ok b => cases h
  · rintro ⟨r', ⟨fuel, h⟩, rfl⟩
    refine ⟨fuel, ?_⟩
    dsimp only
    rw [h]
    cases r' <;> rfl

/-- Behind the points `inside` the code of `c` has one idle step to go. -/
structure Code.IdleTail (m : Meaning I D L ε) (c : Code I K ε) (inside : K → Bool) : Prop where
  sub : ∀ k, inside k = true → c.inside k = true
  idle : ∀ k, c.inside k = true → inside k = false →
    ∃ i, c.fetch k = .ok i ∧ (∀ data locals, m.exec i data locals = .ok (.next data locals)) ∧ c.inside (c.next k) = false

section Tail

variable {m : Meaning I D L ε} {c : Code I K ε} {inside : K → Bool}

/-- The code without its tail. -/
abbrev Code.upTo (c : Code I K ε) (inside : K → Bool) : Code I K ε := { c with inside }

theorem step_upTo (s : State K D L) : step m (c.upTo inside) s = step m c s := by
  have hmove : s.move m (c.upTo inside) = s.move m c := by
    funext a
    cases a <;> rfl
  unfold step
  rw [hmove]

/-- Where the code ends without its tail, it ends with it after one more step, and nothing has changed but the point. -/
theorem Code.IdleTail.run_tail (h : c.IdleTail m inside) {s : State K D L} (hs : s.running (c.upTo inside) = false)
    (fuel : Nat) : (run m c (fuel + 1) s).map (·.data) = .ok s.data := by
  unfold run
  cases hrun : s.running c with
  | false =>
    rw [Loop.run_exit hrun]
    rfl
  | true =>
    have hin := inside_of_running hrun
    have hhalted : s.halted = false := by
      unfold State.running at hrun
      simpa using (Bool.and_eq_true_iff.mp hrun).1
    have hout : inside s.point = false := by
      unfold State.running at hs
      rw [hhalted] at hs
      exact hs
    obtain ⟨i, hi, hidle, hend⟩ := h.idle _ hin hout
    have hstep : step m c s = .ok { s with point := c.next s.point } := by
      unfold step
      rw [hi, Except.bind_of_ok rfl, hidle]
      rfl
    rw [Loop.run_turn hrun (by rw [hstep]; rfl), Loop.run_exit]
    · rfl
    · unfold State.running
      rw [hend, Bool.and_false]

theorem Code.IdleTail.running_of_upTo (h : c.IdleTail m inside) {s : State K D L}
    (hs : s.running (c.upTo inside) = true) : s.running c = true := by
  unfold State.running at hs ⊢
  obtain ⟨hhalted, hin⟩ := Bool.and_eq_true_iff.mp hs
  rw [hhalted, h.sub _ hin]
  rfl

/-- A run of the code without its tail is that of the whole code with fuel for one more step. -/
theorem Code.IdleTail.run_of_upTo (h : c.IdleTail m inside) {r : Except ε D} :
    ∀ (fuel : Nat) (s : State K D L), (run m (c.upTo inside) fuel s).map (·.data) = r.mapError .fault →
      (run m c (fuel + 1) s).map (·.data) = r.mapError .fault
  | fuel, s, hr => by
    cases hs : s.running (c.upTo inside) with
    | false =>
      rw [h.run_tail hs fuel, ← hr]
      unfold run
      rw [Loop.run_exit hs]
      rfl
    | true =>
      have hrun := h.running_of_upTo hs
      cases fuel with
      | zero =>
        unfold run at hr
        simp only [Loop.run, hs, if_true] at hr
        cases r <;> cases hr
      | succ fuel =>
        unfold run at hr ⊢
        rw [Loop.run, if_pos hs, step_upTo] at hr
        rw [Loop.run, if_pos hrun]
        cases hstep : step m c s with
        | error e => rw [hstep] at hr; exact hr
        | ok s' =>
          rw [hstep] at hr
          exact h.run_of_upTo fuel s' hr

/-- The same fuel is enough without the tail. -/
theorem Code.IdleTail.upTo_of_run (h : c.IdleTail m inside) {r : Except ε D} :
    ∀ (fuel : Nat) (s : State K D L), (run m c fuel s).map (·.data) = r.mapError .fault →
      (run m (c.upTo inside) fuel s).map (·.data) = r.mapError .fault
  | fuel, s, hr => by
    cases hs : s.running (c.upTo inside) with
    | false =>
      have hend : (run m (c.upTo inside) fuel s).map (·.data) = .ok s.data := by
        unfold run
        rw [Loop.run_exit hs]
        rfl
      rw [hend, ← h.run_tail hs fuel]
      unfold run at hr ⊢
      cases hx : Loop.run (State.running c) (fun s => (step m c s).mapError .fault) fuel s with
      | ok s' => rw [Loop.run_mono (Nat.le_succ fuel) hx (by simp), ← hr, hx]
      | error e =>
        have he : e ≠ .fuel := by
          rintro rfl
          rw [hx] at hr
          cases r <;> cases hr
        rw [Loop.run_mono (Nat.le_succ fuel) hx (by simpa using he), ← hr, hx]
    | true =>
      have hrun := h.running_of_upTo hs
      cases fuel with
      | zero =>
        unfold run at hr
        simp only [Loop.run, hrun, if_true] at hr
        cases r <;> cases hr
      | succ fuel =>
        unfold run at hr ⊢
        rw [Loop.run, if_pos hrun] at hr
        rw [Loop.run, if_pos hs, step_upTo]
        cases hstep : step m c s with
        | error e => rw [hstep] at hr; exact hr
        | ok s' =>
          rw [hstep] at hr
          exact h.upTo_of_run fuel s' hr

/-- An idle tail does not show in what a run comes to. -/
theorem Code.IdleTail.comes_iff (h : c.IdleTail m inside) (s : State K D L) (r : Except ε D) :
    Comes (fun fuel => (run m (c.upTo inside) fuel s).map (·.data)) r ↔
      Comes (fun fuel => (run m c fuel s).map (·.data)) r := by
  constructor
  · rintro ⟨fuel, hr⟩
    exact ⟨fuel + 1, h.run_of_upTo fuel s hr⟩
  · rintro ⟨fuel, hr⟩
    exact ⟨fuel, h.upTo_of_run fuel s hr⟩

end Tail

end Activation
