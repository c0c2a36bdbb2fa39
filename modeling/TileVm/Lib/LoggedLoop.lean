/-
Loops that keep a log, and the rule for both sides of a logged computation at once: what is logged has
one property, and what is returned another.
-/
import TileVm.Lib.Logged
import TileVm.Lib.Loop

namespace Logged

variable {κ ε α β σ : Type}

/-- `while (cond s) s = body s;` with at most `fuel` turns, and the log of its turns. -/
def run (cond : σ → Bool) (body : σ → Logged κ (Stop ε) σ) : Nat → σ → Logged κ (Stop ε) σ
  | 0, s => if cond s then lift (.error .fuel) else pure s
  | fuel + 1, s => if cond s then body s >>= run cond body fuel else pure s

/-- Without its log it is the loop. -/
@[simp] theorem result_run (cond : σ → Bool) (body : σ → Logged κ (Stop ε) σ) (fuel : Nat) (s : σ) :
    (run cond body fuel s).result = Loop.run cond (fun s => (body s).result) fuel s := by
  induction fuel generalizing s with
  | zero =>
    rw [run, Loop.run, result_ite]
    rfl
  | succ fuel ih =>
    rw [run, Loop.run, result_ite, result_bind, funext ih]
    rfl

/-- Every entry of the log has the property `P`, and a result the property `Q`. -/
structure Keeps (P : κ → Prop) (Q : α → Prop) (x : Logged κ ε α) : Prop where
  log : x.All P
  result : ∀ a, x.result = .ok a → Q a

namespace Keeps

variable {P : κ → Prop} {Q : α → Prop} {R : β → Prop} {I : σ → Prop} {x : Logged κ ε α} {f : α → Logged κ ε β}

theorem pure {a : α} (h : Q a) : Keeps P Q (Pure.pure a : Logged κ ε α) where
  log := .pure a
  result b hb := by
    cases hb
    exact h

theorem lift {x : Except ε α} (h : ∀ a, x = .ok a → Q a) : Keeps P Q (Logged.lift x : Logged κ ε α) where
  log := .lift x
  result := h

theorem tell {k : κ} (h : P k) : Keeps P (fun _ => True) (Logged.tell k : Logged κ ε Unit) where
  log := .tell h
  result _ _ := trivial

theorem bind (hx : Keeps P Q x) (hf : ∀ a, Q a → Keeps P R (f a)) : Keeps P R (x >>= f) where
  log := hx.log.bind fun a ha => (hf a (hx.result a ha)).log
  result b hb := by
    rw [result_bind] at hb
    obtain ⟨a, ha, hb⟩ := Except.bind_ok hb
    exact (hf a (hx.result a ha)).result b hb

/-- Of a computation without a log nothing need be known. -/
theorem lift_bind {x : Except ε α} (hf : ∀ a, Keeps P R (f a)) : Keeps P R (Logged.lift x >>= f) :=
  .bind (Q := fun _ => True) (.lift fun _ _ => trivial) fun a _ => hf a

theorem ite {c : Prop} [Decidable c] {y : Logged κ ε α} (hx : c → Keeps P Q x) (hy : ¬ c → Keeps P Q y) :
    Keeps P Q (if c then x else y) := by
  split
  · exact hx ‹_›
  · exact hy ‹_›

theorem mono {Q' : α → Prop} (h : Keeps P Q x) (himp : ∀ a, Q a → Q' a) : Keeps P Q' x where
  log := h.log
  result a ha := himp a (h.result a ha)

/-- The invariant rule. -/
theorem run {cond : σ → Bool} {body : σ → Logged κ (Stop ε) σ} (hbody : ∀ s, I s → cond s = true → Keeps P I (body s))
    (fuel : Nat) {s : σ} (hs : I s) : Keeps P I (Logged.run cond body fuel s) := by
  induction fuel generalizing s with
  | zero =>
    rw [Logged.run]
    exact .ite (fun _ => .lift fun _ h => nomatch h) fun _ => .pure hs
  | succ fuel ih =>
    rw [Logged.run]
    exact .ite (fun hc => (hbody s hs hc).bind fun s' hs' => ih hs') fun _ => .pure hs

end Keeps

end Logged
