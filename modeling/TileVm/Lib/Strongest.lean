/-
The strongest outline of a code: it asserts of a point that the run passes there. It verifies, and
where the run comes to an end the number of steps that are left is a variant, so that the rules for
outlines are complete.
-/
import Mathlib.Data.Nat.Find
import Mathlib.Logic.Relation
import TileVm.Lib.Variant

namespace Activation

open Except (Post)
open Relation (ReflTransGen TransGen)

variable {I K D L ε : Type}

/-- One step of a machine that runs. -/
def Steps (m : Meaning I D L ε) (c : Code I K ε) (s s' : State K D L) : Prop :=
  s.running c = true ∧ step m c s = .ok s'

section Steps

variable {m : Meaning I D L ε} {c : Code I K ε} {s s' : State K D L}

theorem Steps.run (h : Steps m c s s') (fuel : Nat) : run m c (fuel + 1) s = run m c fuel s' := by
  unfold Activation.run
  rw [Loop.run_turn h.1 (by rw [h.2]; rfl)]

/-- The run from a state that is passed is a part of the run. -/
theorem run_of_reaches (h : ReflTransGen (Steps m c) s s') : ∃ n, ∀ fuel, run m c (fuel + n) s = run m c fuel s' := by
  induction h with
  | refl => exact ⟨0, fun _ => rfl⟩
  | @tail a b _ hstep ih =>
    obtain ⟨n, hn⟩ := ih
    refine ⟨n + 1, fun fuel => ?_⟩
    calc run m c (fuel + (n + 1)) s = run m c (fuel + 1 + n) s := by rw [Nat.add_right_comm, Nat.add_assoc]
      _ = run m c (fuel + 1) a := hn _
      _ = run m c fuel b := hstep.run fuel

open Classical in
/-- The steps that are left to the end of a run. -/
noncomputable def stepsLeft (m : Meaning I D L ε) (c : Code I K ε) (s : State K D L) : Nat :=
  if h : Halts m c s then Nat.find h else 0

theorem Steps.stepsLeft_lt (h : Steps m c s s') (hs : Halts m c s) :
    Halts m c s' ∧ stepsLeft m c s' < stepsLeft m c s := by
  classical
  have hspec := Nat.find_spec hs
  have hs' : stepsLeft m c s = Nat.find hs := dif_pos hs
  rw [hs']
  cases hn : Nat.find hs with
  | zero =>
    -- a machine that runs needs fuel
    rw [hn] at hspec
    unfold Activation.run at hspec
    simp [Loop.run, h.1] at hspec
  | succ n =>
    rw [hn, h.run n] at hspec
    refine ⟨⟨n, hspec⟩, ?_⟩
    rw [stepsLeft, dif_pos ⟨n, hspec⟩]
    exact Nat.lt_succ_of_le (Nat.find_min' _ hspec)

theorem stepsLeft_lt (h : TransGen (Steps m c) s s') (hs : Halts m c s) :
    Halts m c s' ∧ stepsLeft m c s' < stepsLeft m c s := by
  induction h with
  | single hstep => exact hstep.stepsLeft_lt hs
  | tail _ hstep ih =>
    obtain ⟨hhalts, hlt⟩ := ih
    obtain ⟨hhalts', hlt'⟩ := hstep.stepsLeft_lt hhalts
    exact ⟨hhalts', Nat.lt_trans hlt' hlt⟩

theorem halts_of_reaches (h : ReflTransGen (Steps m c) s s') (hs : Halts m c s) : Halts m c s' := by
  induction h with
  | refl => exact hs
  | tail _ hstep ih => exact (hstep.stepsLeft_lt ih).1

end Steps

/-! ## The strongest outline -/

namespace Outline

/-- The outline of the run from `s₀`. The logical variables of an activation are the calls that are open in it, and the state
that it starts in. -/
def strongest (m : Meaning I D L ε) (c : Code I K ε) (s₀ : State K D L) : Outline (List (K × L) × State K D L) K D L ε where
  height g h := g.1.length = h
  pre k g data := g.1 ≠ [] ∧ g.2 = ⟨k, g.1, m.fresh, data, false⟩ ∧ ReflTransGen (Steps m c) s₀ g.2
  post _ g data := ∃ k locals calls, g.1 = (k, locals) :: calls ∧
    ReflTransGen (Steps m c) g.2 ⟨k, calls, locals, data, false⟩
  holds owner k g data locals := (owner = none ↔ g.1 = []) ∧ ReflTransGen (Steps m c) s₀ g.2 ∧
    ReflTransGen (Steps m c) g.2 ⟨k, g.1, locals, data, false⟩
  final data := ∃ s, ReflTransGen (Steps m c) s₀ s ∧ s.halted = true ∧ s.data = data
  fails e := ∃ s, ReflTransGen (Steps m c) s₀ s ∧ s.running c = true ∧ step m c s = .error e

section Strongest

variable {m : Meaning I D L ε} {c : Code I K ε} {s₀ : State K D L}

theorem strongest_entry {k : K} {g : List (K × L) × State K D L} {data : D} (h : (strongest m c s₀).pre k g data) :
    (strongest m c s₀).holds (some k) k g data m.fresh := by
  obtain ⟨hcalls, hstate, hreach⟩ := h
  refine ⟨⟨nofun, fun h => absurd h hcalls⟩, hreach, ?_⟩
  rw [← hstate]

/-- A move of the run leads to an assertion, and behind the point that it comes from. -/
theorem strongest_moveOk {owner : Option K} {k : K} {g : List (K × L) × State K D L} {data : D} {locals : L} {x : Move D L}
    (hk : (strongest m c s₀).holds owner k g data locals) (hrun : (⟨k, g.1, locals, data, false⟩ : State K D L).running c = true)
    (hstep : step m c ⟨k, g.1, locals, data, false⟩ = State.move m c ⟨k, g.1, locals, data, false⟩ x) :
    ((strongest m c s₀).restrict (fun _ k' g' data' locals' =>
      TransGen (Steps m c) ⟨k, g.1, locals, data, false⟩ ⟨k', g'.1, locals', data', false⟩) m.fresh).MoveOk m c owner k g
      g.1.length locals x := by
  obtain ⟨howner, hentry, hhere⟩ := hk
  have hreach := hentry.trans hhere
  have hto {s' : State K D L} (h : State.move m c ⟨k, g.1, locals, data, false⟩ x = .ok s') :
      Steps m c ⟨k, g.1, locals, data, false⟩ s' := ⟨hrun, hstep.trans h⟩
  have hfails {e : ε} (h : State.move m c ⟨k, g.1, locals, data, false⟩ x = .error e) : (strongest m c s₀).fails e :=
    ⟨_, hreach, hrun, hstep.trans h⟩
  cases x with
  | next data' locals' =>
    exact ⟨⟨howner, hentry, hhere.tail (hto rfl)⟩, .single (hto rfl)⟩
  | halt data' => exact ⟨_, hreach.tail (hto rfl), rfl, rfl⟩
  | branch taken data' =>
    simp only [MoveOk]
    cases htarget : c.target k with
    | none => exact hfails (by simp only [State.move, htarget])
    | some k' =>
      have hnext := hto (by simp only [State.move, htarget]; rfl)
      exact ⟨⟨howner, hentry, hhere.tail hnext⟩, .single hnext⟩
  | call data' =>
    simp only [MoveOk]
    by_cases hdeep : m.maxCalls ≤ g.1.length
    · rw [if_pos hdeep]
      exact hfails (by simp only [State.move, if_pos hdeep])
    · rw [if_neg hdeep]
      cases htarget : c.target k with
      | none => exact hfails (by simp only [State.move, if_neg hdeep, htarget])
      | some k' =>
        have hnext := hto (by simp only [State.move, if_neg hdeep, htarget]; rfl)
        refine ⟨((c.next k, locals) :: g.1, ⟨k', (c.next k, locals) :: g.1, m.fresh, data', false⟩), rfl, ?_, ?_⟩
        · exact ⟨⟨List.cons_ne_nil _ _, rfl, hreach.tail hnext⟩, .single hnext⟩
        · rintro data'' ⟨k'', locals'', calls, hcalls, hback⟩
          cases hcalls
          exact ⟨⟨howner, hentry, (hhere.tail hnext).trans hback⟩, (TransGen.single hnext).trans_left hback⟩
  | ret data' =>
    cases hcalls : g.1 with
    | nil =>
      rw [howner.mpr hcalls]
      exact hfails (by simp only [State.move, hcalls])
    | cons a calls =>
      have hback := hto (by simp only [State.move, hcalls]; rfl)
      cases owner with
      | none => exact absurd (howner.mp rfl) (by rw [hcalls]; exact List.cons_ne_nil _ _)
      | some k₀ => exact ⟨a.1, a.2, calls, hcalls, hhere.tail hback⟩

/-- Every instruction of the run goes on in the run. -/
theorem strongest_move {owner : Option K} {k : K} {g : List (K × L) × State K D L} {h : Nat} {data : D} {locals : L}
    (hheight : (strongest m c s₀).height g h) (hk : (strongest m c s₀).holds owner k g data locals) (hin : c.inside k = true) :
    Post (strongest m c s₀).fails (fun i => Post (strongest m c s₀).fails
      (((strongest m c s₀).restrict (fun _ k' g' data' locals' =>
        TransGen (Steps m c) ⟨k, g.1, locals, data, false⟩ ⟨k', g'.1, locals', data', false⟩) m.fresh).MoveOk m c owner k g h
          locals) (m.exec i data locals)) (c.fetch k) := by
  cases hheight
  have hrun : (⟨k, g.1, locals, data, false⟩ : State K D L).running c = true := by
    unfold State.running
    rw [hin]
    rfl
  have hfails {e : ε} (h : step m c ⟨k, g.1, locals, data, false⟩ = .error e) : (strongest m c s₀).fails e :=
    ⟨_, hk.2.1.trans hk.2.2, hrun, h⟩
  refine Post.intro (fun e he => hfails ?_) fun i hi => Post.intro (fun e he => hfails ?_) fun x hx => ?_
  · unfold step
    rw [he]
    rfl
  · unfold step
    rw [hi, Except.bind_of_ok rfl, he]
    rfl
  · refine strongest_moveOk hk hrun ?_
    unfold step
    rw [hi, Except.bind_of_ok rfl, hx]
    rfl

theorem strongest_verifies (m : Meaning I D L ε) (c : Code I K ε) (s₀ : State K D L) : (strongest m c s₀).Verifies m c where
  entry _ _ _ h := strongest_entry h
  move _ _ _ _ _ _ hheight hk hin :=
    (strongest_move hheight hk hin).mono (fun _ h => h) fun _ hi => hi.mono (fun _ h => h) fun _ => .of_restrict

/-- Where the run comes to an end, the steps that are left are a variant. -/
theorem strongest_decreases (h : Halts m c s₀) : (strongest m c s₀).Decreases m c fun _ k g data locals =>
    stepsLeft m c ⟨k, g.1, locals, data, false⟩ where
  entry _ _ _ h := strongest_entry h
  move owner k g _ data locals hheight hk hin := by
    have hhalts : Halts m c ⟨k, g.1, locals, data, false⟩ := halts_of_reaches (hk.2.1.trans hk.2.2) h
    refine (strongest_move hheight hk hin).mono (fun _ h => h) fun i hi => hi.mono (fun _ h => h) fun x hx => ?_
    exact hx.mono fun _ _ _ _ _ hlater => (stepsLeft_lt hlater hhalts).2

/-- The strongest outline fails as the run does. -/
theorem strongest_fails {e : ε} (h : (strongest m c s₀).fails e) : ∃ fuel, run m c fuel s₀ = .error (.fault e) := by
  obtain ⟨s, hreach, hrun, hstep⟩ := h
  obtain ⟨n, hn⟩ := run_of_reaches hreach
  refine ⟨1 + n, (hn 1).trans ?_⟩
  unfold run
  rw [Loop.run, if_pos hrun, hstep]
  rfl

/-- The strongest outline ends as the run does. -/
theorem strongest_ends {data : D} (h : (strongest m c s₀).Ends c data) : ∃ fuel s, run m c fuel s₀ = .ok s ∧ s.data = data := by
  have hends {s : State K D L} (hreach : ReflTransGen (Steps m c) s₀ s) (hend : s.running c = false) :
      ∃ fuel, run m c fuel s₀ = .ok s := by
    obtain ⟨n, hn⟩ := run_of_reaches hreach
    refine ⟨0 + n, (hn 0).trans ?_⟩
    unfold run
    exact Loop.run_exit hend
  rcases h with ⟨s, hreach, hhalted, rfl⟩ | ⟨owner, k, g, locals, hout, -, hentry, hhere⟩
  · obtain ⟨fuel, hfuel⟩ := hends hreach (by unfold State.running; rw [hhalted]; rfl)
    exact ⟨fuel, s, hfuel, rfl⟩
  · obtain ⟨fuel, hfuel⟩ := hends (hentry.trans hhere) (by unfold State.running; rw [hout, Bool.and_false])
    exact ⟨fuel, _, hfuel, rfl⟩

/-- The run starts as the strongest outline says. -/
theorem strongest_start (m : Meaning I D L ε) (c : Code I K ε) (data : D) :
    (strongest m c (init m c data)).holds none c.start ([], init m c data) data m.fresh :=
  ⟨⟨fun _ => rfl, fun _ => rfl⟩, .refl, .refl⟩

end Strongest

end Outline

end Activation
