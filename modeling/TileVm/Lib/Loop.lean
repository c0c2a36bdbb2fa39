/-
`while` loops over a state, with fuel: the loop returns, its body fails, or the fuel runs out.
The rules are those of a program logic: an invariant kept by the body holds at the exit, a
measure that every turn decreases bounds the fuel that suffices, more fuel never changes a
returned result, and a body that keeps the condition true never lets the loop return.
-/
import TileVm.Lib.Post

/-- Why a computation with loops did not return: a loop ran out of fuel, or a fault. -/
inductive Stop (ε : Type) where
  | fuel
  | fault (e : ε)
deriving DecidableEq, Repr

namespace Loop

variable {σ ε : Type}

/-- `while (cond s) s = body s;` with at most `fuel` turns. -/
def run (cond : σ → Bool) (body : σ → Except (Stop ε) σ) : Nat → σ → Except (Stop ε) σ
  | 0, s => if cond s then .error .fuel else .ok s
  | fuel + 1, s => if cond s then body s >>= run cond body fuel else .ok s

variable {cond : σ → Bool} {body : σ → Except (Stop ε) σ}

theorem run_exit {fuel : Nat} {s : σ} (h : cond s = false) : run cond body fuel s = .ok s := by
  cases fuel <;> simp [run, h]

theorem run_turn {fuel : Nat} {s s' : σ} (h : cond s = true) (hb : body s = .ok s') :
    run cond body (fuel + 1) s = run cond body fuel s' := by
  rw [run, if_pos h, hb]; rfl

/-- The invariant rule: what the body keeps while the condition holds is true at the exit,
together with the negated condition. -/
theorem run_inv (I : σ → Prop) (hstep : ∀ s s', I s → cond s = true → body s = .ok s' → I s') :
    ∀ (fuel : Nat) (s s' : σ), I s → run cond body fuel s = .ok s' → I s' ∧ cond s' = false
  | 0, s, s', hI, h => by
    simp only [run] at h
    split at h
    · cases h
    · rename_i hc; cases h; exact ⟨hI, by simpa using hc⟩
  | fuel + 1, s, s', hI, h => by
    simp only [run] at h
    split at h
    · rename_i hc
      obtain ⟨t, ht, h⟩ := Except.bind_ok h
      exact run_inv I hstep fuel t s' (hstep s t hI hc ht) h
    · rename_i hc; cases h; exact ⟨hI, by simpa using hc⟩

/-- The total rule: when every turn returns, keeps the invariant and decreases `μ`, fuel `μ s`
is enough. -/
theorem run_total (I : σ → Prop) (μ : σ → Nat)
    (hstep : ∀ s, I s → cond s = true → ∃ s', body s = .ok s' ∧ I s' ∧ μ s' < μ s) :
    ∀ (fuel : Nat) (s : σ), I s → μ s ≤ fuel → ∃ s', run cond body fuel s = .ok s' ∧ I s' ∧ cond s' = false
  | 0, s, hI, hμ => by
    cases hc : cond s with
    | false => exact ⟨s, run_exit hc, hI, hc⟩
    | true =>
      obtain ⟨s', -, -, hlt⟩ := hstep s hI hc
      omega
  | fuel + 1, s, hI, hμ => by
    cases hc : cond s with
    | false => exact ⟨s, run_exit hc, hI, hc⟩
    | true =>
      obtain ⟨t, ht, hIt, hlt⟩ := hstep s hI hc
      rw [run_turn hc ht]
      exact run_total I μ hstep fuel t hIt (by omega)

/-- The rule for outcomes: what the body keeps is true at the exit, and the loop fails as the body
does, or for want of fuel. -/
theorem run_post {F : Stop ε → Prop} (hF : F .fuel) (I : σ → Prop)
    (hstep : ∀ s, I s → cond s = true → (body s).Post F I) :
    ∀ (fuel : Nat) (s : σ), I s → (run cond body fuel s).Post F fun s' => I s' ∧ cond s' = false
  | 0, s, hI => by
    simp only [run]
    split
    · exact hF
    · rename_i hc; exact ⟨hI, by simpa using hc⟩
  | fuel + 1, s, hI => by
    simp only [run]
    split
    · rename_i hc
      exact .bind ((hstep s hI hc).mono (fun _ h => h) fun s' hs' => run_post hF I hstep fuel s' hs')
    · rename_i hc; exact ⟨hI, by simpa using hc⟩

/-- The same, with a measure that every turn decreases: fuel is wanting only below it. -/
theorem run_bounded {F : Stop ε → Prop} (I : σ → Prop) (μ : σ → Nat)
    (hstep : ∀ s, I s → cond s = true → (body s).Post F fun s' => I s' ∧ μ s' < μ s) :
    ∀ (fuel : Nat) (s : σ), I s →
      (run cond body fuel s).Post (fun e => e = .fuel ∧ fuel ≤ μ s ∨ F e) fun s' => I s' ∧ cond s' = false
  | 0, s, hI => by
    simp only [run]
    split
    · exact .inl ⟨rfl, Nat.zero_le _⟩
    · rename_i hc; exact ⟨hI, by simpa using hc⟩
  | fuel + 1, s, hI => by
    simp only [run]
    split
    · rename_i hc
      refine .bind ((hstep s hI hc).mono (fun _ h => .inr h) ?_)
      rintro s' ⟨hs', hlt⟩
      refine (run_bounded I μ hstep fuel s' hs').mono ?_ fun _ h => h
      rintro e (⟨rfl, hle⟩ | he)
      · exact .inl ⟨rfl, by omega⟩
      · exact .inr he
    · rename_i hc; exact ⟨hI, by simpa using hc⟩

/-- When no turn runs out of fuel and every turn that returns decreases `μ`, more fuel than `μ s` is
enough. -/
theorem run_halts (I : σ → Prop) (μ : σ → Nat)
    (hstep : ∀ s, I s → cond s = true →
      body s ≠ .error .fuel ∧ ∀ s', body s = .ok s' → I s' ∧ μ s' < μ s) :
    ∀ (fuel : Nat) (s : σ), I s → μ s < fuel → run cond body fuel s ≠ .error .fuel
  | 0, s, _, hμ => absurd hμ (Nat.not_lt_zero _)
  | fuel + 1, s, hI, hμ => by
    cases hc : cond s with
    | false => rw [run_exit hc]; simp
    | true =>
      obtain ⟨hne, hdec⟩ := hstep s hI hc
      cases hb : body s with
      | error e =>
        simp only [run, if_pos hc, hb]
        rw [hb] at hne; exact hne
      | ok s' =>
        obtain ⟨hI', hlt⟩ := hdec s' hb
        rw [run_turn hc hb]
        exact run_halts I μ hstep fuel s' hI' (by omega)

/-- The states in which the body of a loop from `s₀` starts. -/
inductive Enters (cond : σ → Bool) (body : σ → Except (Stop ε) σ) (s₀ : σ) : σ → Prop
  | first (hc : cond s₀ = true) : Enters cond body s₀ s₀
  | turn {s s' : σ} (hs : Enters cond body s₀ s) (hb : body s = .ok s') (hc : cond s' = true) :
    Enters cond body s₀ s'

theorem Enters.cond_true {s₀ s : σ} (h : Enters cond body s₀ s) : cond s = true := by
  cases h <;> assumption

/-- The invariant rule for these states. -/
theorem Enters.inv {s₀ s : σ} (I : σ → Prop) (h0 : I s₀) (hstep : ∀ s s', I s → body s = .ok s' → I s')
    (h : Enters cond body s₀ s) : I s := by
  induction h with
  | first => exact h0
  | turn _ hb _ ih => exact hstep _ _ ih hb

/-- A loop fails in one of these states, as its body does there. -/
theorem run_fault {s₀ : σ} {e : ε} : ∀ (fuel : Nat) {s : σ}, (cond s = true → Enters cond body s₀ s) →
    run cond body fuel s = .error (.fault e) → ∃ s', Enters cond body s₀ s' ∧ body s' = .error (.fault e)
  | 0, s, _, h => by
    simp only [run] at h
    split at h <;> cases h
  | fuel + 1, s, hs, h => by
    simp only [run] at h
    split at h
    · rename_i hc
      rcases Except.bind_error h with hb | ⟨t, ht, h⟩
      · exact ⟨s, hs hc, hb⟩
      · exact run_fault fuel (.turn (hs hc) ht) h
    · cases h

/-- The turns of a loop, whether or not it returns: the condition holds in `ρ 0, .., ρ n`, and each
of these states but the last goes on to the next one. -/
structure Trace (cond : σ → Bool) (body : σ → Except (Stop ε) σ) (ρ : Nat → σ) (n : Nat) : Prop where
  enter : ∀ i ≤ n, cond (ρ i) = true
  turn : ∀ i < n, body (ρ i) = .ok (ρ (i + 1))

/-- The invariant rule for the states in which the body starts. -/
theorem Trace.inv {ρ : Nat → σ} {n : Nat} (ht : Trace cond body ρ n) (I : σ → Prop) (h0 : I (ρ 0))
    (hstep : ∀ i < n, I (ρ i) → body (ρ i) = .ok (ρ (i + 1)) → cond (ρ (i + 1)) = true → I (ρ (i + 1))) :
    ∀ i ≤ n, I (ρ i)
  | 0, _ => h0
  | i + 1, hi =>
    hstep i (by omega) (Trace.inv ht I h0 hstep i (by omega)) (ht.turn i (by omega)) (ht.enter (i + 1) hi)

/-- Outcomes other than running out of fuel do not depend on the fuel. -/
theorem run_mono {fuel fuel' : Nat} (hle : fuel ≤ fuel') :
    ∀ {s : σ} {r : Except (Stop ε) σ}, run cond body fuel s = r → r ≠ .error .fuel →
      run cond body fuel' s = r := by
  induction fuel generalizing fuel' with
  | zero =>
    intro s r h hr
    cases hc : cond s with
    | false => rw [run_exit hc] at h ⊢; exact h
    | true => simp [run, hc] at h; exact absurd h.symm hr
  | succ fuel ih =>
    intro s r h hr
    obtain ⟨k, rfl⟩ : ∃ k, fuel' = k + 1 := ⟨fuel' - 1, by omega⟩
    cases hc : cond s with
    | false => rw [run_exit hc] at h ⊢; exact h
    | true =>
      simp only [run, if_pos hc] at h ⊢
      cases hb : body s with
      | error e => rw [hb] at h; exact h
      | ok t =>
        rw [hb] at h
        exact ih (by omega) h hr

/-- A loop whose condition the body keeps true runs out of every fuel. -/
theorem run_diverges (I : σ → Prop)
    (hstep : ∀ s, I s → cond s = true ∧ ∃ s', body s = .ok s' ∧ I s') :
    ∀ (fuel : Nat) (s : σ), I s → run cond body fuel s = .error .fuel
  | 0, s, hI => by simp [run, (hstep s hI).1]
  | fuel + 1, s, hI => by
    obtain ⟨hc, t, ht, hIt⟩ := hstep s hI
    rw [run_turn hc ht]
    exact run_diverges I hstep fuel t hIt

end Loop
