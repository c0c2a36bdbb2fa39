/-
Folds in `Except` over a list: the rule for outcomes and the invariant rule, indexed by the elements
already processed, and the fold of two functions that agree on the elements of the list.
-/
import Mathlib.Data.List.Induction
import TileVm.Lib.Post

namespace Except

variable {α β ε : Type} {f g : β → α → Except ε β}

theorem foldlM_cons_ok {a : α} {l : List α} {b r : β} (h : (a :: l).foldlM f b = .ok r) :
    ∃ c, f b a = .ok c ∧ l.foldlM f c = .ok r := by
  rw [List.foldlM_cons] at h
  exact bind_ok h

theorem foldlM_append_ok {l l' : List α} {b r : β} (h : (l ++ l').foldlM f b = .ok r) :
    ∃ c, l.foldlM f b = .ok c ∧ l'.foldlM f c = .ok r := by
  rw [List.foldlM_append] at h
  exact bind_ok h

/-- A fold that returns has taken every element. -/
theorem foldlM_mem {l : List α} {b r : β} (h : l.foldlM f b = .ok r) {a : α} (ha : a ∈ l) :
    ∃ c c', f c a = .ok c' := by
  obtain ⟨pre, post, rfl⟩ := List.append_of_mem ha
  obtain ⟨c, -, h⟩ := foldlM_append_ok h
  obtain ⟨c', hc, -⟩ := foldlM_cons_ok h
  exact ⟨c, c', hc⟩

/-- The rule for outcomes: `P done b` after the elements `done`, or an error of one of the steps. -/
theorem foldlM_post {F : ε → Prop} (P : List α → β → Prop) : ∀ (l done : List α) (b : β),
    (∀ pre a post c, done ++ l = pre ++ a :: post → P pre c → (f c a).Post F (P (pre ++ [a]))) →
      P done b → (l.foldlM f b).Post F (P (done ++ l))
  | [], done, b, _, h0 => by
    rw [List.append_nil]
    exact h0
  | a :: l, done, b, hstep, h0 => by
    rw [List.foldlM_cons]
    refine .bind ((hstep done a l b rfl h0).mono (fun _ h => h) fun c hc => ?_)
    have := foldlM_post P l (done ++ [a]) c (fun pre x post d heq => hstep pre x post d (by simpa using heq)) hc
    simpa using this

/-- The invariant rule: `P done b` after the elements `done`. -/
theorem foldlM_inv (P : List α → β → Prop) (l done : List α) (b r : β)
    (hstep : ∀ pre a post c c', done ++ l = pre ++ a :: post → P pre c → f c a = .ok c' → P (pre ++ [a]) c')
    (h0 : P done b) (h : l.foldlM f b = .ok r) : P (done ++ l) r :=
  (foldlM_post (F := fun _ => True) P l done b
    (fun pre a post c heq hP => .intro (fun _ _ => trivial) fun c' => hstep pre a post c c' heq hP) h0).of_ok h

/-- The total rule: when every step from `P` returns in `P`, so does the fold. -/
theorem foldlM_total (P : List α → β → Prop) (l done : List α) (b : β)
    (hstep : ∀ pre a post c, done ++ l = pre ++ a :: post → P pre c → ∃ c', f c a = .ok c' ∧ P (pre ++ [a]) c')
    (h0 : P done b) : ∃ r, l.foldlM f b = .ok r ∧ P (done ++ l) r := by
  have hpost : (l.foldlM f b).Post (fun _ => False) (P (done ++ l)) := by
    refine foldlM_post P l done b (fun pre a post c heq hP => ?_) h0
    obtain ⟨c', hc, hP'⟩ := hstep pre a post c heq hP
    rw [hc]
    exact hP'
  cases hr : l.foldlM f b with
  | error e => exact (hpost.of_error hr).elim
  | ok r => exact ⟨r, rfl, hpost.of_ok hr⟩

/-- A step that fails ends the fold. -/
theorem foldlM_stop {l post : List α} {a : α} {b c : β} {e : ε} (h : l.foldlM f b = .ok c) (hstop : f c a = .error e) :
    (l ++ a :: post).foldlM f b = .error e := by
  rw [List.foldlM_append, bind_of_ok h, List.foldlM_cons, bind_of_error hstop]

theorem foldlM_congr : ∀ {l : List α} {b : β}, (∀ a ∈ l, ∀ c, f c a = g c a) → l.foldlM f b = l.foldlM g b
  | [], _, _ => rfl
  | a :: l, b, h => by
    rw [List.foldlM_cons, List.foldlM_cons, h a (List.mem_cons_self ..)]
    congr 1
    funext c
    exact foldlM_congr fun x hx => h x (List.mem_cons_of_mem _ hx)

end Except

/-- A property of the empty list that a list lacks is lost at one of its elements. -/
theorem List.exists_first_fail {α : Type} {Q : List α → Prop} (h0 : Q []) {l : List α} (h : ¬ Q l) :
    ∃ pre a post, l = pre ++ a :: post ∧ Q pre ∧ ¬ Q (pre ++ [a]) := by
  induction l using List.reverseRecOn with
  | nil => exact absurd h0 h
  | append_singleton l a ih =>
    by_cases hl : Q l
    · exact ⟨l, a, [], rfl, hl, h⟩
    · obtain ⟨pre, x, post, rfl, hpre, hx⟩ := ih hl
      exact ⟨pre, x, post ++ [a], by simp, hpre, hx⟩
