/-
Variants for proof outlines: a value of a well-founded order at each assertion, that goes down at
every move, into a procedure that is called and behind it, too. Where a verified outline has a
variant, every run comes to an end, however procedures call each other.
-/
import Mathlib.Order.WellFounded
import TileVm.Lib.Outline

namespace Activation

open Except (Post)

variable {I K D L ε G α : Type}

/-! ## Runs that come to an end -/

/-- With enough fuel the run from `s` comes to an end. -/
def Halts (m : Meaning I D L ε) (c : Code I K ε) (s : State K D L) : Prop := ∃ fuel, run m c fuel s ≠ .error .fuel

section Halts

variable {m : Meaning I D L ε} {c : Code I K ε} {s s' : State K D L}

theorem halts_exit (h : s.running c = false) : Halts m c s := by
  refine ⟨0, ?_⟩
  unfold run
  rw [Loop.run_exit h]
  intro hfuel
  cases hfuel

/-- A run comes to an end where it does so behind its first step. -/
theorem halts_step (hrun : s.running c = true) (h : ∀ s', step m c s = .ok s' → Halts m c s') : Halts m c s := by
  cases hstep : step m c s with
  | error e =>
    refine ⟨1, ?_⟩
    unfold run
    rw [Loop.run, if_pos hrun, hstep]
    intro hfuel
    cases hfuel
  | ok s' =>
    obtain ⟨fuel, hfuel⟩ := h s' hstep
    refine ⟨fuel + 1, ?_⟩
    unfold run at hfuel ⊢
    rwa [Loop.run_turn hrun (by rw [hstep]; rfl)]

/-- More fuel changes nothing. -/
theorem Halts.stable (h : Halts m c s) : ∃ fuel, ∀ n, fuel ≤ n → run m c n s = run m c fuel s ∧ run m c n s ≠ .error .fuel := by
  obtain ⟨fuel, hfuel⟩ := h
  refine ⟨fuel, fun n hn => ?_⟩
  have hsame : run m c n s = run m c fuel s := Loop.run_mono hn rfl hfuel
  exact ⟨hsame, by rwa [hsame]⟩

end Halts

/-! ## Variants -/

namespace Outline

/-- The assertions of `o`, where `R` holds as well. -/
def restrict (o : Outline G K D L ε) (R : Option K → K → G → D → L → Prop) (fresh : L) : Outline G K D L ε where
  height := o.height
  pre k g data := o.pre k g data ∧ R (some k) k g data fresh
  post := o.post
  holds owner k g data locals := o.holds owner k g data locals ∧ R owner k g data locals
  final := o.final
  fails := o.fails

/-- The assertions of `o`, at points where the variant is below `a`. -/
abbrev below [LT α] (o : Outline G K D L ε) (variant : Option K → K → G → D → L → α) (fresh : L) (a : α) :
    Outline G K D L ε :=
  o.restrict (fun owner k g data locals => variant owner k g data locals < a) fresh

/-- The outline is right, and every instruction makes the variant go down. -/
structure Decreases [LT α] (o : Outline G K D L ε) (m : Meaning I D L ε) (c : Code I K ε)
    (variant : Option K → K → G → D → L → α) : Prop where
  entry : ∀ k g data, o.pre k g data → o.holds (some k) k g data m.fresh
  move : ∀ owner k g h data locals, o.height g h → o.holds owner k g data locals → c.inside k = true →
    Post o.fails (fun i => Post o.fails
      ((o.below variant m.fresh (variant owner k g data locals)).MoveOk m c owner k g h locals) (m.exec i data locals))
      (c.fetch k)

section Ends

variable {o : Outline G K D L ε} {m : Meaning I D L ε} {c : Code I K ε}

/-- What is shown of a move under a relation, is shown under a weaker one. -/
theorem MoveOk.mono {R R' : Option K → K → G → D → L → Prop} (hR : ∀ owner k g data locals, R owner k g data locals →
      R' owner k g data locals) {owner : Option K} {k : K} {g : G} {h : Nat} {locals fresh : L} {x : Move D L}
    (hx : (o.restrict R fresh).MoveOk m c owner k g h locals x) : (o.restrict R' fresh).MoveOk m c owner k g h locals x := by
  cases x with
  | next data locals => exact hx.imp_right (hR _ _ _ _ _)
  | ret data => exact hx
  | halt data => exact hx
  | branch taken data =>
    simp only [MoveOk] at hx ⊢
    cases htarget : c.target k with
    | none =>
      rw [htarget] at hx
      exact hx
    | some k' =>
      rw [htarget] at hx
      exact hx.imp_right (hR _ _ _ _ _)
  | call data =>
    simp only [MoveOk] at hx ⊢
    split
    · rwa [if_pos ‹_›] at hx
    · rw [if_neg ‹_›] at hx
      cases htarget : c.target k with
      | none =>
        rw [htarget] at hx
        exact hx
      | some k' =>
        rw [htarget] at hx
        obtain ⟨g', hheight, hpre, hpost⟩ := hx
        exact ⟨g', hheight, hpre.imp_right (hR _ _ _ _ _), fun data hdata => (hpost data hdata).imp_right (hR _ _ _ _ _)⟩

theorem restrict_true (o : Outline G K D L ε) (fresh : L) : o.restrict (fun _ _ _ _ _ => True) fresh = o := by
  simp only [restrict, and_true]

theorem MoveOk.of_restrict {R : Option K → K → G → D → L → Prop} {owner : Option K} {k : K} {g : G} {h : Nat}
    {locals fresh : L} {x : Move D L} (hx : (o.restrict R fresh).MoveOk m c owner k g h locals x) :
    o.MoveOk m c owner k g h locals x := by
  rw [← restrict_true o fresh]
  exact hx.mono fun _ _ _ _ _ _ => trivial

section Variant

variable [LT α] {variant : Option K → K → G → D → L → α}

theorem Decreases.verifies (ho : o.Decreases m c variant) : o.Verifies m c where
  entry := ho.entry
  move owner k g h data locals hheight hk hin :=
    (ho.move owner k g h data locals hheight hk hin).mono (fun _ h => h) fun _ hi => hi.mono (fun _ h => h) fun _ => .of_restrict

/-- The run of an activation comes to an end where the run behind its return does. -/
theorem Decreases.halts_activation [WellFoundedLT α] (ho : o.Decreases m c variant) (a : α) :
    ∀ (owner : Option K) (g : G) (s : State K D L), variant owner s.point g s.data s.locals = a →
      o.height g s.calls.length → o.holds owner s.point g s.data s.locals → s.halted = false →
      (∀ data s', (∀ k₀, owner = some k₀ → o.post k₀ g data) → s.move m c (.ret data) = .ok s' → Halts m c s') →
      Halts m c s := by
  induction a using WellFoundedLT.induction with
  | ind a ih =>
    rintro owner g s rfl hheight hholds hhalted hreturns
    cases hrun : s.running c with
    | false => exact halts_exit hrun
    | true =>
      refine halts_step hrun fun s' hs' => ?_
      obtain ⟨i, hi, hs'⟩ := Except.bind_ok hs'
      obtain ⟨x, hx, hs'⟩ := Except.bind_ok hs'
      have hmove := ((ho.move owner s.point g _ s.data s.locals hheight hholds (inside_of_running hrun)).of_ok hi).of_ok hx
      cases x with
      | next data locals =>
        cases hs'
        exact ih _ hmove.2 owner g _ rfl hheight hmove.1 hhalted hreturns
      | halt data =>
        cases hs'
        exact halts_exit rfl
      | ret data =>
        refine hreturns data s' (fun k₀ hk₀ => ?_) hs'
        subst hk₀
        exact hmove
      | branch taken data =>
        simp only [MoveOk, State.move] at hmove hs'
        cases htarget : c.target s.point with
        | none =>
          rw [htarget] at hs'
          cases hs'
        | some k =>
          rw [htarget] at hmove hs'
          cases hs'
          exact ih _ hmove.2 owner g _ rfl hheight hmove.1 hhalted hreturns
      | call data =>
        simp only [MoveOk, State.move] at hmove hs'
        split at hs'
        · cases hs'
        · rw [if_neg ‹_›] at hmove
          cases htarget : c.target s.point with
          | none =>
            rw [htarget] at hs'
            cases hs'
          | some k =>
            rw [htarget] at hmove hs'
            cases hs'
            obtain ⟨g', hheight', hpre, hpost⟩ := hmove
            -- the callee comes to an end, and then the caller does, from the point behind the call
            refine ih _ hpre.2 (some k) g' _ rfl hheight' (ho.entry k g' data hpre.1) hhalted fun data' s'' hdata' hs'' => ?_
            have hback := hpost data' (hdata' k rfl)
            cases hs''
            exact ih _ hback.2 owner g _ rfl hheight hback.1 hhalted hreturns

/-- Every run that an outline with a variant speaks of comes to an end. -/
theorem Decreases.halts [WellFoundedLT α] (ho : o.Decreases m c variant) {g : G} {data : D} (hheight : o.height g 0)
    (hstart : o.holds none c.start g data m.fresh) : Halts m c (Activation.init m c data) :=
  ho.halts_activation _ none g (Activation.init m c data) rfl hheight hstart rfl nofun

end Variant

end Ends

end Outline

end Activation
