/-
Pre- and postconditions for computations in `Except`: a computation meets `Post F Q` when its
error is in `F` or its value is in `Q`. The rules follow the shape of the program (pure, error,
branch, bind), so a proof about a function walks through it once.
-/
import Mathlib.Tactic.Common

namespace Except

variable {α β ε : Type}

/-- `x` fails with an error in `F` or returns a value in `Q`. -/
def Post (F : ε → Prop) (Q : α → Prop) : Except ε α → Prop
  | .error e => F e
  | .ok a => Q a

theorem bind_ok {x : Except ε α} {f : α → Except ε β} {b : β} (h : x >>= f = .ok b) :
    ∃ a, x = .ok a ∧ f a = .ok b := by
  cases x with
  | error e => cases h
  | ok a => exact ⟨a, rfl, h⟩

theorem bind_of_ok {x : Except ε α} {f : α → Except ε β} {a : α} (h : x = .ok a) : x >>= f = f a := by
  subst h; rfl

theorem bind_of_error {x : Except ε α} {f : α → Except ε β} {e : ε} (h : x = .error e) :
    x >>= f = .error e := by
  subst h; rfl

theorem bind_error {x : Except ε α} {f : α → Except ε β} {e : ε} (h : x >>= f = .error e) :
    x = .error e ∨ ∃ a, x = .ok a ∧ f a = .error e := by
  cases x with
  | error e' => cases h; exact .inl rfl
  | ok a => exact .inr ⟨a, rfl, h⟩

theorem map_eq_ok {x : Except ε α} {f : α → β} {b : β} (h : x.map f = .ok b) : ∃ a, x = .ok a ∧ f a = b := by
  cases x with
  | error e => cases h
  | ok a => exact ⟨a, rfl, Except.ok.inj h⟩

theorem map_eq_error {x : Except ε α} {f : α → β} {e : ε} (h : x.map f = .error e) : x = .error e := by
  cases x with
  | error e' => cases h; rfl
  | ok a => cases h

theorem mapError_eq_ok {ε' : Type} {x : Except ε α} {f : ε → ε'} {a : α} : x.mapError f = .ok a ↔ x = .ok a := by
  cases x <;> simp [Except.mapError]

theorem mapError_eq_error {ε' : Type} {x : Except ε α} {f : ε → ε'} {e : ε'} (h : x.mapError f = .error e) :
    ∃ d, f d = e := by
  cases x with
  | error d => exact ⟨d, Except.error.inj h⟩
  | ok a => cases h

/-- `x` returns a value that passes the check. -/
def okAnd (check : α → Bool) : Except ε α → Bool
  | .ok a => check a
  | .error _ => false

theorem okAnd_eq_true {x : Except ε α} {check : α → Bool} (h : x.okAnd check = true) :
    ∃ a, x = .ok a ∧ check a = true := by
  cases x with
  | error e => cases h
  | ok a => exact ⟨a, rfl, h⟩

theorem okAnd_of_ok {x : Except ε α} {check : α → Bool} {a : α} (h : x = .ok a) : x.okAnd check = check a := by
  rw [h]
  rfl

namespace Post

variable {F : ε → Prop} {Q : α → Prop} {R : β → Prop}

theorem ok {a : α} (h : Q a) : Post F Q (.ok a) := h

theorem error {e : ε} (h : F e) : Post F Q (.error e : Except ε α) := h

theorem ite {c : Prop} [Decidable c] {x y : Except ε α} (hx : c → Post F Q x) (hy : ¬ c → Post F Q y) :
    Post F Q (if c then x else y) := by
  split
  · exact hx ‹_›
  · exact hy ‹_›

theorem bind {x : Except ε α} {f : α → Except ε β} (hx : Post F (fun a => Post F R (f a)) x) :
    Post F R (x >>= f) := by
  cases x with
  | error e => exact hx
  | ok a => exact hx

/-- When any error will do, what comes first does not matter. -/
theorem bind_any {x : Except ε α} {f : α → Except ε β} (hF : ∀ e, F e) (hf : ∀ a, Post F R (f a)) :
    Post F R (x >>= f) := by
  cases x with
  | error e => exact hF e
  | ok a => exact hf a

theorem map {x : Except ε α} {f : α → β} (hx : Post F (fun a => R (f a)) x) : Post F R (x.map f) := by
  cases x with
  | error e => exact hx
  | ok a => exact hx

theorem mono {F' : ε → Prop} {Q' : α → Prop} {x : Except ε α} (hx : Post F Q x)
    (hF : ∀ e, F e → F' e) (hQ : ∀ a, Q a → Q' a) : Post F' Q' x := by
  cases x with
  | error e => exact hF e hx
  | ok a => exact hQ a hx

theorem of_ok {x : Except ε α} {a : α} (hx : Post F Q x) (h : x = .ok a) : Q a := by
  subst h; exact hx

theorem of_error {x : Except ε α} {e : ε} (hx : Post F Q x) (h : x = .error e) : F e := by
  subst h; exact hx

theorem intro {x : Except ε α} (hF : ∀ e, x = .error e → F e) (hQ : ∀ a, x = .ok a → Q a) : Post F Q x := by
  cases x with
  | error e => exact hF e rfl
  | ok a => exact hQ a rfl

end Post

end Except
