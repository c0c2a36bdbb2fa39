/-
Two computations in `Except`, with errors of their own, that return the same values and fail
together. The rules follow the shape of the programs; two loops with one condition whose bodies mirror
each other mirror each other.
-/
import TileVm.Lib.Loop

namespace Except

variable {α β ε ε' : Type}

/-- The computations return the same, or fail with errors in relation `R`. -/
inductive Mirrors (R : ε → ε' → Prop) : Except ε α → Except ε' α → Prop where
  | ok (a : α) : Mirrors R (.ok a) (.ok a)
  | error {e : ε} {e' : ε'} (h : R e e') : Mirrors R (.error e) (.error e')

namespace Mirrors

variable {R : ε → ε' → Prop} {x : Except ε α} {y : Except ε' α}

theorem ok_iff (h : Mirrors R x y) (a : α) : x = .ok a ↔ y = .ok a := by
  cases h with
  | ok b => rw [Except.ok.injEq, Except.ok.injEq]
  | error => exact iff_of_false nofun nofun

/-- Where the errors do not matter, the results decide. -/
theorem of_ok_iff (h : ∀ a, x = .ok a ↔ y = .ok a) : Mirrors (fun _ _ => True) x y := by
  cases hx : x with
  | ok a =>
    rw [(h a).1 hx]
    exact .ok a
  | error e =>
    cases hy : y with
    | ok a =>
      rw [(h a).2 hy] at hx
      cases hx
    | error e' => exact .error trivial

theorem refl {S : ε → ε → Prop} (hS : ∀ e, S e e) (x : Except ε α) : Mirrors S x x := by
  cases x with
  | ok a => exact .ok a
  | error e => exact .error (hS e)

theorem mono {S : ε → ε' → Prop} (h : Mirrors R x y) (hRS : ∀ e e', R e e' → S e e') : Mirrors S x y := by
  cases h with
  | ok a => exact .ok a
  | error h => exact .error (hRS _ _ h)

theorem bind {f : α → Except ε β} {g : α → Except ε' β} (h : Mirrors R x y) (hf : ∀ a, y = .ok a → Mirrors R (f a) (g a)) :
    Mirrors R (x >>= f) (y >>= g) := by
  cases h with
  | ok a => exact hf a rfl
  | error h => exact .error h

theorem ite {c : Prop} [Decidable c] {x' : Except ε α} {y' : Except ε' α} (ht : c → Mirrors R x y)
    (he : ¬ c → Mirrors R x' y') : Mirrors R (if c then x else x') (if c then y else y') := by
  by_cases h : c
  · rw [if_pos h, if_pos h]
    exact ht h
  · rw [if_neg h, if_neg h]
    exact he h

/-- Errors under other names. -/
theorem mapError {ζ ζ' : Type} {S : ζ → ζ' → Prop} {k : ε → ζ} {k' : ε' → ζ'} (h : Mirrors R x y)
    (hS : ∀ e e', R e e' → S (k e) (k' e')) : Mirrors S (x.mapError k) (y.mapError k') := by
  cases h with
  | ok a => exact .ok a
  | error h => exact .error (hS _ _ h)

/-- One computation, its errors renamed on one side. -/
theorem mapError_left {y : Except ε α} {k : ε → ε'} {S : ε' → ε → Prop} (hS : ∀ e, S (k e) e) :
    Mirrors S (y.mapError k) y := by
  cases y with
  | ok a => exact .ok a
  | error e => exact .error (hS e)

end Mirrors

end Except

/-- Both want fuel, or stop at faults in relation `R`. -/
inductive Stop.Mirrors {ε ε' : Type} (R : ε → ε' → Prop) : Stop ε → Stop ε' → Prop where
  | fuel : Stop.Mirrors R .fuel .fuel
  | fault {e : ε} {e' : ε'} (h : R e e') : Stop.Mirrors R (.fault e) (.fault e')

namespace Loop

open Except (Mirrors)

variable {σ ε ε' : Type} {R : ε → ε' → Prop} {cond : σ → Bool} {body : σ → Except (Stop ε) σ}
  {body' : σ → Except (Stop ε') σ}

/-- Two loops whose bodies mirror each other on what the second keeps mirror each other. -/
theorem run_mirrors (I : σ → Prop) (hbody : ∀ s, I s → cond s = true → Mirrors (Stop.Mirrors R) (body s) (body' s))
    (hI : ∀ s s', I s → cond s = true → body' s = .ok s' → I s') :
    ∀ (fuel : Nat) (s : σ), I s → Mirrors (Stop.Mirrors R) (run cond body fuel s) (run cond body' fuel s)
  | 0, s, _ => by
    simp only [run]
    exact .ite (fun _ => .error .fuel) fun _ => .ok s
  | fuel + 1, s, hs => by
    simp only [run]
    refine .ite (fun hc => ?_) fun _ => .ok s
    exact (hbody s hs hc).bind fun s' hs' => run_mirrors I hbody hI fuel s' (hI s s' hs hc hs')

end Loop
