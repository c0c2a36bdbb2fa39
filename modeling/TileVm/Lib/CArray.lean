/-
Fixed-size arrays with checked access: the `n` cells of a C array, a read and a write that
report an error of the caller's choice when the index is outside, and the read-over-write laws
that every proof about such an array uses.
-/
import Mathlib.Logic.Function.Basic
import TileVm.Lib.Post

/-- An array of `n` cells. -/
structure CArray (α : Type) (n : Nat) where
  cell : Fin n → α

namespace CArray

variable {α ε : Type} {n : Nat}

/-- Every cell holds `v`. -/
def fill (v : α) : CArray α n := ⟨fun _ => v⟩

/-- The cell at `i`, when there is one. -/
def get? (a : CArray α n) (i : Nat) : Option α :=
  if h : i < n then some (a.cell ⟨i, h⟩) else none

/-- The array with cell `i` replaced; unchanged when there is no cell `i`. -/
def put (a : CArray α n) (i : Nat) (v : α) : CArray α n :=
  if h : i < n then ⟨Function.update a.cell ⟨i, h⟩ v⟩ else a

/-- The array of the images of the cells. -/
def map {β : Type} (f : α → β) (a : CArray α n) : CArray β n := ⟨fun i => f (a.cell i)⟩

/-- A checked read. -/
def load (e : ε) (a : CArray α n) (i : Nat) : Except ε α :=
  match a.get? i with
  | some v => .ok v
  | none => .error e

/-- A checked write. -/
def store (e : ε) (a : CArray α n) (i : Nat) (v : α) : Except ε (CArray α n) :=
  if i < n then .ok (a.put i v) else .error e

theorem get?_of_lt (a : CArray α n) {i : Nat} (h : i < n) : a.get? i = some (a.cell ⟨i, h⟩) := by
  unfold get?; rw [dif_pos h]

theorem get?_of_le (a : CArray α n) {i : Nat} (h : n ≤ i) : a.get? i = none := by
  unfold get?; rw [dif_neg (by omega)]

theorem get?_lt {a : CArray α n} {i : Nat} {v : α} (h : a.get? i = some v) : i < n := by
  by_contra hi
  rw [get?_of_le a (by omega)] at h; cases h

theorem get?_fill (v : α) {i : Nat} (h : i < n) : (fill v : CArray α n).get? i = some v := by
  rw [get?_of_lt _ h]; rfl

theorem get?_map {β : Type} (f : α → β) (a : CArray α n) (i : Nat) : (a.map f).get? i = (a.get? i).map f := by
  by_cases hi : i < n
  · rw [get?_of_lt _ hi, get?_of_lt _ hi]
    rfl
  · rw [get?_of_le _ (by omega), get?_of_le _ (by omega)]
    rfl

theorem put_of_lt (a : CArray α n) {i : Nat} (v : α) (h : i < n) :
    a.put i v = ⟨Function.update a.cell ⟨i, h⟩ v⟩ := by
  unfold put; rw [dif_pos h]

theorem get?_put_self (a : CArray α n) {i : Nat} (v : α) (h : i < n) : (a.put i v).get? i = some v := by
  rw [get?_of_lt _ h, put_of_lt a v h]
  show some (Function.update a.cell ⟨i, h⟩ v ⟨i, h⟩) = some v
  rw [Function.update_self]

theorem get?_put_of_ne (a : CArray α n) {i j : Nat} (v : α) (h : j ≠ i) :
    (a.put i v).get? j = a.get? j := by
  by_cases hi : i < n
  · by_cases hj : j < n
    · rw [get?_of_lt _ hj, get?_of_lt _ hj, put_of_lt a v hi]
      show some (Function.update a.cell ⟨i, hi⟩ v ⟨j, hj⟩) = some (a.cell ⟨j, hj⟩)
      rw [Function.update_of_ne (by simpa [Fin.ext_iff] using h)]
    · rw [get?_of_le _ (by omega), get?_of_le _ (by omega)]
  · unfold put; rw [dif_neg hi]

/-- Two arrays with the same cells are the same array. -/
theorem ext_get? {a b : CArray α n} (h : ∀ i, a.get? i = b.get? i) : a = b := by
  obtain ⟨f⟩ := a
  obtain ⟨g⟩ := b
  congr 1
  funext ⟨i, hi⟩
  have := h i
  rw [get?_of_lt _ hi, get?_of_lt _ hi] at this
  exact Option.some.inj this

theorem load_ok {e : ε} {a : CArray α n} {i : Nat} {v : α} : a.load e i = .ok v ↔ a.get? i = some v := by
  unfold load
  cases a.get? i <;> simp

theorem load_error {e f : ε} {a : CArray α n} {i : Nat} (h : a.load e i = .error f) : f = e ∧ n ≤ i := by
  by_cases hi : i < n
  · unfold load at h; rw [get?_of_lt a hi] at h; cases h
  · unfold load at h; rw [get?_of_le a (by omega)] at h; cases h; exact ⟨rfl, by omega⟩

theorem store_ok {e : ε} {a b : CArray α n} {i : Nat} {v : α} :
    a.store e i v = .ok b ↔ i < n ∧ b = a.put i v := by
  unfold store
  split
  · rename_i h; simp [h, eq_comm]
  · rename_i h; simp [h]

theorem store_error {e f : ε} {a : CArray α n} {i : Nat} {v : α} (h : a.store e i v = .error f) :
    f = e ∧ n ≤ i := by
  unfold store at h
  split at h
  · cases h
  · cases h; exact ⟨rfl, by omega⟩

/-- The array with the cells from `i` on replaced by the entries of a list. -/
def putAll (a : CArray α n) (i : Nat) : List α → CArray α n
  | [] => a
  | v :: vs => (a.put i v).putAll (i + 1) vs

theorem get?_putAll_of_lt (a : CArray α n) {i j : Nat} (vs : List α) (h : j < i) :
    (a.putAll i vs).get? j = a.get? j := by
  induction vs generalizing a i with
  | nil => rfl
  | cons v vs ih =>
    have hput : (a.put i v).get? j = a.get? j := get?_put_of_ne a v (Nat.ne_of_lt h)
    rw [putAll, ih (a.put i v) (Nat.lt_succ_of_lt h), hput]

theorem get?_putAll (a : CArray α n) {i : Nat} (vs : List α) {j : Nat} (hn : i + vs.length ≤ n)
    (hj : j < vs.length) : (a.putAll i vs).get? (i + j) = vs[j]? := by
  induction vs generalizing a i j with
  | nil => simp at hj
  | cons v vs ih =>
    rw [List.length_cons] at hn hj
    rw [putAll]
    cases j with
    | zero =>
      have hrest := get?_putAll_of_lt (a.put i v) vs (show i < i + 1 by omega)
      exact hrest.trans (get?_put_self a v (by omega))
    | succ j =>
      have := ih (a.put i v) (i := i + 1) (j := j) (by omega) (by omega)
      rw [show i + (j + 1) = i + 1 + j by omega, this]
      rfl

/-- A checked read meets what holds of the cell, and of the error when the index is outside. -/
theorem load_post {F : ε → Prop} {Q : α → Prop} {e : ε} {a : CArray α n} {i : Nat}
    (hF : n ≤ i → F e) (hQ : ∀ v, a.get? i = some v → Q v) : Except.Post F Q (a.load e i) := by
  refine Except.Post.intro ?_ fun v h => hQ v (load_ok.1 h)
  intro f h
  obtain ⟨rfl, hi⟩ := load_error h
  exact hF hi

theorem store_post {F : ε → Prop} {Q : CArray α n → Prop} {e : ε} {a : CArray α n} {i : Nat} {v : α}
    (hF : n ≤ i → F e) (hQ : i < n → Q (a.put i v)) : Except.Post F Q (a.store e i v) := by
  unfold store
  exact Except.Post.ite (fun h => hQ h) (fun h => hF (by omega))

end CArray
