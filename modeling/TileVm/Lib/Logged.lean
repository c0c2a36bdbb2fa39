/-
Computations that keep a log. A computation that may stop with an error has, in either case, the
list of what it has logged until then; without the log it is a computation in `Except`, and what it
logs is known part by part.
-/
import TileVm.Lib.Post

/-- A computation with the log of its run, that of a failed one included. -/
structure Logged (κ ε α : Type) where
  log : List κ
  result : Except ε α

namespace Logged

variable {κ ε α β : Type} {x : Logged κ ε α} {f : α → Logged κ ε β}

instance : Monad (Logged κ ε) where
  pure a := ⟨[], .ok a⟩
  bind x f :=
    match x.result with
    | .ok a => ⟨x.log ++ (f a).log, (f a).result⟩
    | .error e => ⟨x.log, .error e⟩

/-- One entry. -/
def tell (k : κ) : Logged κ ε Unit := ⟨[k], .ok ()⟩

/-- A computation that logs nothing. -/
def lift (x : Except ε α) : Logged κ ε α := ⟨[], x⟩

/-! ## The result -/

@[simp] theorem result_pure (a : α) : (pure a : Logged κ ε α).result = .ok a := rfl

@[simp] theorem result_tell (k : κ) : (tell k : Logged κ ε Unit).result = .ok () := rfl

@[simp] theorem result_lift (x : Except ε α) : (lift x : Logged κ ε α).result = x := rfl

@[simp] theorem result_bind (x : Logged κ ε α) (f : α → Logged κ ε β) :
    (x >>= f).result = x.result >>= fun a => (f a).result := by
  show (match x.result with | .ok a => _ | .error e => _ : Logged κ ε β).result = _
  cases x.result <;> rfl

@[simp] theorem result_ite (c : Prop) [Decidable c] (x y : Logged κ ε α) :
    (if c then x else y).result = if c then x.result else y.result := by
  split <;> rfl

/-! ## The log -/

theorem log_bind_of_ok {a : α} (h : x.result = .ok a) : (x >>= f).log = x.log ++ (f a).log := by
  show (match x.result with | .ok a => _ | .error e => _ : Logged κ ε β).log = _
  rw [h]

theorem log_bind_of_error {e : ε} (h : x.result = .error e) : (x >>= f).log = x.log := by
  show (match x.result with | .ok a => _ | .error e => _ : Logged κ ε β).log = _
  rw [h]

theorem mem_tell_bind {k l : κ} {f : Unit → Logged κ ε β} : l ∈ (tell k >>= f).log ↔ l = k ∨ l ∈ (f ()).log := by
  rw [log_bind_of_ok (result_tell k)]
  exact List.mem_cons

/-- What the second part logs when the first has returned. -/
theorem mem_bind_of_ok {a : α} {k : κ} (h : x.result = .ok a) (hk : k ∈ (f a).log) : k ∈ (x >>= f).log := by
  rw [log_bind_of_ok h]
  exact List.mem_append_right _ hk

/-- Every entry of the log has the property. -/
def All (P : κ → Prop) (x : Logged κ ε α) : Prop := ∀ k ∈ x.log, P k

namespace All

variable {P : κ → Prop}

theorem pure (a : α) : All P (Pure.pure a : Logged κ ε α) := by
  rintro k ⟨⟩

theorem lift (x : Except ε α) : All P (Logged.lift x : Logged κ ε α) := by
  rintro k ⟨⟩

theorem tell {k : κ} (h : P k) : All P (Logged.tell k : Logged κ ε Unit) := by
  rintro l hl
  rw [List.mem_singleton.mp hl]
  exact h

theorem bind (hx : x.All P) (hf : ∀ a, x.result = .ok a → (f a).All P) : (x >>= f).All P := by
  intro k hk
  cases h : x.result with
  | error e =>
    rw [log_bind_of_error h] at hk
    exact hx k hk
  | ok a =>
    rw [log_bind_of_ok h] at hk
    rcases List.mem_append.mp hk with hk | hk
    · exact hx k hk
    · exact hf a h k hk

theorem ite {c : Prop} [Decidable c] {y : Logged κ ε α} (hx : c → x.All P) (hy : ¬ c → y.All P) :
    (if c then x else y).All P := by
  split
  · exact hx ‹_›
  · exact hy ‹_›

end All

end Logged
