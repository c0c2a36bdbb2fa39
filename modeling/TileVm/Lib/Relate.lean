/-
Two runs of computations in `Except`, side by side: `y` follows `x` when every selected result of
`x` is matched by a related result of `y`. A strict comparison asks for the same errors too. The
rules follow the shape of the programs, which branch, bind and loop in step.
-/
import TileVm.Lib.Loop

namespace Except

variable {α β α' β' ε : Type}

/-- Every result of `x` in `S` is matched by a result of `y` in relation `R`; and if `strict`, an
error of `x` is the error of `y`. -/
structure Follows (strict : Prop) (S : α → Prop) (R : α → α' → Prop) (x : Except ε α) (y : Except ε α') : Prop where
  result : ∀ a, x = .ok a → S a → ∃ b, y = .ok b ∧ R a b
  fault : strict → ∀ e, x = .error e → y = .error e

namespace Follows

variable {strict : Prop} {S : α → Prop} {R : α → α' → Prop} {T : β → Prop} {Q : β → β' → Prop}

theorem ok {a : α} {b : α'} (h : S a → R a b) : Follows (ε := ε) strict S R (.ok a) (.ok b) := by
  constructor
  · rintro _ ⟨⟩ ha
    exact ⟨b, rfl, h ha⟩
  · rintro _ _ ⟨⟩

/-- A result that is not selected is followed by anything, unless the comparison is strict. -/
theorem skip {a : α} {y : Except ε α'} (hs : ¬ strict) (ha : ¬ S a) : Follows strict S R (.ok a) y := by
  constructor
  · rintro _ ⟨⟩ h
    exact absurd h ha
  · exact fun h => absurd h hs

theorem error (e : ε) : Follows strict S R (.error e : Except ε α) (.error e) := by
  constructor
  · rintro _ ⟨⟩
  · rintro _ _ ⟨⟩
    rfl

/-- The same computation on both sides. -/
theorem refl (x : Except ε α) : Follows strict (fun _ => True) (fun a b => b = a) x x := by
  constructor
  · rintro a ha -
    exact ⟨a, ha, rfl⟩
  · exact fun _ _ he => he

theorem bind {x : Except ε α} {y : Except ε α'} {f : α → Except ε β} {g : α' → Except ε β'}
    (h : Follows strict (fun _ => True) R x y) (hf : ∀ a b, x = .ok a → R a b → Follows strict T Q (f a) (g b)) :
    Follows strict T Q (x >>= f) (y >>= g) := by
  cases x with
  | error e =>
    constructor
    · rintro _ ⟨⟩
    · rintro hs _ ⟨⟩
      rw [h.fault hs e rfl]
      rfl
  | ok a =>
    obtain ⟨b, rfl, hab⟩ := h.result a rfl trivial
    exact hf a b rfl hab

/-- Both sides run the same computation first. -/
theorem bind_same {x y : Except ε α} {f : α → Except ε β} {g : α → Except ε β'} (h : y = x)
    (hf : ∀ a, x = .ok a → Follows strict T Q (f a) (g a)) : Follows strict T Q (x >>= f) (y >>= g) := by
  subst h
  exact bind (refl y) fun a _ ha hab => hab ▸ hf a ha

theorem ite {c c' : Prop} [Decidable c] [Decidable c'] {x x' : Except ε α} {y y' : Except ε α'} (hc : c ↔ c')
    (ht : c → Follows strict S R x y) (he : ¬ c → Follows strict S R x' y') :
    Follows strict S R (if c then x else x') (if c' then y else y') := by
  by_cases h : c
  · rw [if_pos h, if_pos (hc.1 h)]
    exact ht h
  · rw [if_neg h, if_neg fun h' => h (hc.2 h')]
    exact he h

/-- Two loops whose conditions agree and whose bodies follow each other take the same turns. -/
theorem loop {ζ : Type} {σ σ' : Type} {strict : Prop} {I : σ → σ' → Prop} {cond : σ → Bool} {cond' : σ' → Bool}
    {body : σ → Except (Stop ζ) σ} {body' : σ' → Except (Stop ζ) σ'} (hcond : ∀ s s', I s s' → cond' s' = cond s)
    (hbody : ∀ s s', I s s' → cond s = true → Follows strict (fun _ => True) I (body s) (body' s')) :
    ∀ (fuel : Nat) (s : σ) (s' : σ'), I s s' → Follows strict (fun _ => True) (fun t t' => I t t' ∧ cond t = false)
      (Loop.run cond body fuel s) (Loop.run cond' body' fuel s')
  | 0, s, s', h => by
    simp only [Loop.run, hcond s s' h]
    split
    · exact error _
    · exact ok fun _ => ⟨h, by simpa using ‹¬ cond s = true›⟩
  | fuel + 1, s, s', h => by
    simp only [Loop.run, hcond s s' h]
    split
    · exact bind (hbody s s' h ‹_›) fun t t' _ ht => loop hcond hbody fuel t t' ht
    · exact ok fun _ => ⟨h, by simpa using ‹¬ cond s = true›⟩

theorem mono {S' : α → Prop} {R' : α → α' → Prop} {x : Except ε α} {y : Except ε α'} (h : Follows strict S R x y)
    (hS : ∀ a, S' a → S a) (hR : ∀ a b, R a b → R' a b) : Follows strict S' R' x y := by
  constructor
  · intro a ha hs
    obtain ⟨b, hb, hab⟩ := h.result a ha (hS a hs)
    exact ⟨b, hb, hR a b hab⟩
  · exact h.fault

end Follows

end Except
