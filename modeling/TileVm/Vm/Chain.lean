/-
The chain of frames behind the current one: the invariant of the doubly linked frame list, and
what `tvm_frame_next`, `tvm_frame_prev` and a store of a local variable do to it. The chain hangs
on any live frame `base`, so that it serves whole runs (`base` is the frame of `tvm_init`) and
single calls (`base` is the caller's frame).
-/
import TileVm.Vm.Step

namespace TileVm

/-! ## The chain -/

/-- The frames visited by following `prev` `k` times from `a`; `none` when one of them is not
allocated or its link was never written. -/
def prevPath (fs : FrameStore) : Nat → Addr → Option (List Addr)
  | 0, a => (fs a).map fun _ => [a]
  | k + 1, a => do
    let n ← fs a
    let p ← n.prev
    let rest ← prevPath fs k p
    return a :: rest

/-- `path` leads from `a` back to `base` in `k` calls; the frames are live and distinct, and each
caller's `next` is its callee. -/
inductive Chain (fs : FrameStore) (base : Addr) : Nat → Addr → List Addr → Prop where
  | base {n : TvmFrame} (live : fs base = some n) : Chain fs base 0 base [base]
  | call {k : Nat} {a b : Addr} {path : List Addr} {n m : TvmFrame} (live : fs a = some n) (prev : n.prev = some b)
      (caller : fs b = some m) (next : m.next = some a) (ne : a ≠ 0) (new : a ∉ path)
      (rest : Chain fs base k b path) : Chain fs base (k + 1) a (a :: path)

namespace Chain

variable {fs fs' : FrameStore} {base a : Addr} {k : Nat} {path : List Addr}

theorem head_mem (h : Chain fs base k a path) : a ∈ path := by
  cases h <;> exact List.mem_cons_self

theorem base_mem (h : Chain fs base k a path) : base ∈ path := by
  induction h with
  | base => exact List.mem_cons_self
  | call _ _ _ _ _ _ _ ih => exact List.mem_cons_of_mem _ ih

theorem live_of_mem (h : Chain fs base k a path) : ∀ x ∈ path, ∃ n, fs x = some n := by
  induction h with
  | base live =>
    intro x hx
    cases List.mem_singleton.1 hx
    exact ⟨_, live⟩
  | call live _ _ _ _ _ _ ih =>
    intro x hx
    rcases List.mem_cons.1 hx with rfl | hx
    · exact ⟨_, live⟩
    · exact ih x hx

theorem nodup (h : Chain fs base k a path) : path.Nodup := by
  induction h with
  | base => exact List.pairwise_singleton ..
  | call _ _ _ _ _ new _ ih => exact List.nodup_cons.2 ⟨new, ih⟩

theorem getLast? (h : Chain fs base k a path) : path.getLast? = some base := by
  induction h with
  | base => rfl
  | call _ _ _ _ _ _ rest ih =>
    rw [List.getLast?_cons, ih]; rfl

theorem prevPath_eq (h : Chain fs base k a path) : prevPath fs k a = some path := by
  induction h with
  | base live => simp [prevPath, live]
  | call live prev _ _ _ _ _ ih => simp [prevPath, live, prev, ih]

theorem linked (h : Chain fs base k a path) (hk : 0 < k) : Linked fs a := by
  cases h with
  | base => omega
  | call live prev caller next => exact ⟨_, _, _, live, prev, caller, next⟩

theorem head_ne_base (h : Chain fs base k a path) (hk : 0 < k) : a ≠ base := by
  cases h with
  | base => omega
  | call _ _ _ _ _ new rest => exact fun he => new (he ▸ rest.base_mem)

/-- The chain reads the `prev` link of every frame on it and the `next` link of the callers. -/
theorem transport (h : Chain fs base k a path)
    (hprev : ∀ x ∈ path, (fs' x).map (·.prev) = (fs x).map (·.prev))
    (hnext : ∀ x ∈ path, x ≠ a → (fs' x).map (·.next) = (fs x).map (·.next)) : Chain fs' base k a path := by
  induction h with
  | base live =>
    have h := hprev _ List.mem_cons_self
    rw [live] at h
    obtain ⟨n', hn', -⟩ := Option.map_eq_some_iff.1 h
    exact .base hn'
  | @call k a b path n m live prev caller next ne new rest ih =>
    have h := hprev _ List.mem_cons_self
    rw [live, Option.map_some, prev] at h
    obtain ⟨n', hn', hp'⟩ := Option.map_eq_some_iff.1 h
    have hb : b ≠ a := fun he => new (he ▸ rest.head_mem)
    have h := hnext b (List.mem_cons_of_mem _ rest.head_mem) hb
    rw [caller, Option.map_some, next] at h
    obtain ⟨m', hm', hx'⟩ := Option.map_eq_some_iff.1 h
    refine .call hn' hp' hm' hx' ne new (ih (fun x hx => hprev x (List.mem_cons_of_mem _ hx)) fun x hx hxb => ?_)
    exact hnext x (List.mem_cons_of_mem _ hx) fun he => new (he ▸ hx)

end Chain

/-! ## Calls and returns -/

/-- `tvm_frame_next`: a fresh frame with zeroed locals, linked both ways with the caller's. -/
theorem tvmFrameNext_ok {al : FrameAllocator} {fs fs' : FrameStore} {a b : Addr}
    (h : tvmFrameNext al fs a = .ok (b, fs')) :
    ∃ n, fs a = some n ∧ fs b = none ∧ b ≠ 0 ∧ fs' b = some ⟨none, some a, .fill ObjectT.zero⟩ ∧
      fs' a = some { n with next := some b } ∧ ∀ x, x ≠ a → x ≠ b → fs' x = fs x := by
  unfold tvmFrameNext tvmFrameInit at h
  obtain ⟨n, hn, h⟩ := Except.bind_ok h
  rw [FrameStore.load_ok] at hn
  split at h
  · rename_i b' hb'
    obtain ⟨hfresh, hne⟩ := al.fresh _ _ hb'
    have hab : b' ≠ a := fun he => by rw [he, hn] at hfresh; cases hfresh
    rw [Except.bind_of_ok rfl] at h
    dsimp only at h
    rw [Except.bind_of_ok (FrameStore.load_ok.2 (by rw [FrameStore.set_of_ne _ _ hab, FrameStore.set_self]))] at h
    cases h
    refine ⟨n, hn, hfresh, hne, ?_, ?_, fun x hxa hxb => ?_⟩
    · rw [FrameStore.set_self]
    · rw [FrameStore.set_of_ne _ _ hab.symm, FrameStore.set_self]
    · rw [FrameStore.set_of_ne _ _ hxb, FrameStore.set_of_ne _ _ hxa, FrameStore.set_of_ne _ _ hxb]
  · cases h

namespace Chain

variable {fs fs' : FrameStore} {base a b : Addr} {k : Nat} {path : List Addr}

/-- A call extends the chain by the callee's frame. -/
theorem frameNext {al : FrameAllocator} (h : Chain fs base k a path) (hn : tvmFrameNext al fs a = .ok (b, fs')) :
    Chain fs' base (k + 1) b (b :: path) := by
  obtain ⟨n, ha, hb, hne, hb', ha', hother⟩ := tvmFrameNext_ok hn
  have hnew : b ∉ path := fun hm => by
    obtain ⟨m, hm⟩ := h.live_of_mem b hm
    rw [hb] at hm; cases hm
  refine .call hb' rfl ha' rfl hne hnew (h.transport (fun x hx => ?_) fun x hx hxa => ?_)
  · by_cases hxa : x = a
    · subst hxa; rw [ha', ha]; rfl
    · rw [hother x hxa fun he => hnew (he ▸ hx)]
  · rw [hother x hxa fun he => hnew (he ▸ hx)]

/-- A return frees the callee's frame, and nothing else. -/
theorem framePrev (h : Chain fs base (k + 1) a path) (hp : tvmFramePrev fs a = .ok (b, fs')) :
    ∃ rest, path = a :: rest ∧ fs' = fs.erase a ∧ Chain fs' base k b rest := by
  cases h with
  | @call _ _ c rest n m live prev caller next ne new hrest =>
    unfold tvmFramePrev at hp
    rw [Except.bind_of_ok (FrameStore.load_ok.2 live), Except.bind_of_ok (link_ok.2 prev),
      Except.bind_of_ok (FrameStore.load_ok.2 caller), Except.bind_of_ok (link_ok.2 next)] at hp
    unfold tvmFrameFree at hp
    rw [if_neg ne, live, Except.bind_of_ok rfl] at hp
    cases hp
    refine ⟨rest, rfl, rfl, hrest.transport (fun x hx => ?_) fun x hx _ => ?_⟩
    · rw [FrameStore.erase_of_ne _ (ne_of_mem_of_not_mem hx new)]
    · rw [FrameStore.erase_of_ne _ (ne_of_mem_of_not_mem hx new)]

/-- A write to the local variables of the current frame leaves every link. -/
theorem setLocals {n n' : TvmFrame} (h : Chain fs base k a path) (hn : fs a = some n) (hp : n'.prev = n.prev) :
    Chain (fs.set a n') base k a path := by
  refine h.transport (fun x _ => ?_) fun x _ hxa => ?_
  · by_cases hxa : x = a
    · subst hxa; rw [FrameStore.set_self, hn, Option.map_some, Option.map_some, hp]
    · rw [FrameStore.set_of_ne _ _ hxa]
  · rw [FrameStore.set_of_ne _ _ hxa]

end Chain

end TileVm
