/-
Decoders as state transformers over a reader, and the two things to prove about one: on input
that starts with the encoding of a value it returns that value (`Decodes`), and from a run that
met no end of input the bytes it consumed are known (`Recovers`). The rules follow the shape of
the decoder.
-/
import TileVm.Lib.Post

/-- What the states of a reader mean: the input they still have, whether everything asked for so
far was there, and which bytes lie between two of them. -/
structure Tape (σ β : Type) where
  rest : σ → List β
  Full : σ → Prop
  Reads : σ → List β → σ → Prop
  reads_nil : ∀ s, Reads s [] s
  reads_append : ∀ {s s' s'' : σ} {x y : List β}, Reads s x s' → Reads s' y s'' → Reads s (x ++ y) s''
  rest_of_reads : ∀ {s s' : σ} {x : List β}, Reads s x s' → rest s = x ++ rest s'
  full_of_reads : ∀ {s s' : σ} {x : List β}, Reads s x s' → Full s' → Full s

namespace Tape

variable {σ β ε : Type} {A B : Type} (T : Tape σ β)

/-- On input that starts with `x`, `d` returns `a` and stands after `x`. -/
def Decodes (d : StateT σ (Except ε) A) (a : A) (x : List β) : Prop :=
  ∀ s tl, T.rest s = x ++ tl → ∃ s', d s = .ok (a, s') ∧ T.Reads s x s'

/-- When `d` returns without having met the end of the input, it consumed bytes that are in
relation `V` with its result. -/
def Recovers (d : StateT σ (Except ε) A) (V : A → List β → Prop) : Prop :=
  ∀ s a s', d s = .ok (a, s') → T.Full s' → ∃ x, V a x ∧ T.Reads s x s'

variable {T}

theorem rest_after {s s' : σ} {x tl : List β} (h : T.Reads s x s') (hs : T.rest s = x ++ tl) : T.rest s' = tl := by
  rw [T.rest_of_reads h] at hs
  exact List.append_cancel_left hs

theorem bind_run (d : StateT σ (Except ε) A) (e : A → StateT σ (Except ε) B) (s : σ) :
    (d >>= e) s = d s >>= fun p => e p.1 p.2 := rfl

theorem bind_ok {d : StateT σ (Except ε) A} {e : A → StateT σ (Except ε) B} {s s'' : σ} {b : B}
    (h : (d >>= e) s = .ok (b, s'')) : ∃ a s', d s = .ok (a, s') ∧ e a s' = .ok (b, s'') := by
  obtain ⟨⟨a, s'⟩, hd, he⟩ := Except.bind_ok h
  exact ⟨a, s', hd, he⟩

namespace Decodes

theorem pure (a : A) : T.Decodes (Pure.pure a : StateT σ (Except ε) A) a [] :=
  fun s _ _ => ⟨s, rfl, T.reads_nil s⟩

theorem bind {d : StateT σ (Except ε) A} {e : A → StateT σ (Except ε) B} {a : A} {b : B} {x y : List β}
    (hd : T.Decodes d a x) (he : T.Decodes (e a) b y) : T.Decodes (d >>= e) b (x ++ y) := by
  intro s tl hs
  rw [List.append_assoc] at hs
  obtain ⟨s', hrun, hread⟩ := hd s (y ++ tl) hs
  obtain ⟨s'', hrun', hread'⟩ := he s' tl (rest_after hread hs)
  refine ⟨s'', ?_, T.reads_append hread hread'⟩
  rw [bind_run, hrun]
  exact hrun'

theorem bind_pure {d : StateT σ (Except ε) A} {f : A → B} {a : A} {x : List β} (hd : T.Decodes d a x) :
    T.Decodes (d >>= fun a => Pure.pure (f a)) (f a) x := by
  have h := hd.bind (e := fun a => Pure.pure (f a)) (.pure (f a))
  rwa [List.append_nil] at h

/-- A step that reads nothing. -/
theorem lift_bind {v : Except ε A} {e : A → StateT σ (Except ε) B} {a : A} {b : B} {x : List β} (hv : v = .ok a)
    (he : T.Decodes (e a) b x) : T.Decodes (StateT.lift v >>= e) b x := by
  subst hv
  exact he

theorem lift {v : Except ε A} {a : A} (hv : v = .ok a) : T.Decodes (StateT.lift v) a [] := by
  subst hv
  exact .pure a

end Decodes

namespace Recovers

variable {V : A → List β → Prop}

theorem pure {a : A} (h : V a []) : T.Recovers (Pure.pure a : StateT σ (Except ε) A) V := by
  intro s a' s' hrun _
  cases hrun
  exact ⟨[], h, T.reads_nil s⟩

theorem bind {W : A → B → List β → Prop} {d : StateT σ (Except ε) A} {e : A → StateT σ (Except ε) B}
    (hd : T.Recovers d V) (he : ∀ a, T.Recovers (e a) (W a)) :
    T.Recovers (d >>= e) fun b z => ∃ a x y, V a x ∧ W a b y ∧ z = x ++ y := by
  intro s b s'' hrun hfull
  obtain ⟨a, s', hrun, hrun'⟩ := bind_ok hrun
  obtain ⟨y, hw, hread'⟩ := he a s' b s'' hrun' hfull
  obtain ⟨x, hv, hread⟩ := hd s a s' hrun (T.full_of_reads hread' hfull)
  exact ⟨x ++ y, ⟨a, x, y, hv, hw, rfl⟩, T.reads_append hread hread'⟩

theorem lift_bind {W : B → List β → Prop} {v : Except ε A} {e : A → StateT σ (Except ε) B}
    (he : ∀ a, v = .ok a → T.Recovers (e a) W) : T.Recovers (StateT.lift v >>= e) W := by
  intro s b s' hrun hfull
  cases v with
  | error f => cases hrun
  | ok a => exact he a rfl s b s' hrun hfull

theorem lift {v : Except ε A} (h : ∀ a, v = .ok a → V a []) : T.Recovers (StateT.lift v) V := by
  cases v with
  | error f => intro s a s' hrun _; cases hrun
  | ok a => exact .pure (h a rfl)

theorem mono {V' : A → List β → Prop} {d : StateT σ (Except ε) A} (hd : T.Recovers d V)
    (h : ∀ a x, V a x → V' a x) : T.Recovers d V' := by
  intro s a s' hrun hfull
  obtain ⟨x, hv, hread⟩ := hd s a s' hrun hfull
  exact ⟨x, h a x hv, hread⟩

end Recovers

end Tape
