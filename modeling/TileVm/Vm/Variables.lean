/-
What variables hold over whole runs. A load of a global variable gives what the latest store to it
has stored; a load of a local variable what the latest store to it in the same activation has
stored, whatever the activations called in between, recursive ones included, have stored in theirs.
-/
import Mathlib.Data.List.Forall2
import TileVm.Vm.Globals

namespace TileVm

variable {W : Type} {env : Env W} {ρ : Nat → Vm W} {vm vm' : Vm W} {n i k : Nat}

/-! ## Histories -/

/-- The state executes `op` with operand `k`. -/
def Vm.executes (vm : Vm W) (op : OpType) (k : Nat) : Bool :=
  match vm.program.code.get? vm.ip with
  | some inst => OpType.ofNat? inst.type.toNat == some op && inst.operand.ui32.toNat == k
  | none => false

/-- The object on top of the stack. -/
def Vm.topObject (vm : Vm W) : Option ObjectT := vm.stack.get? (vm.sp - 1)

/-- The object that the latest `op k` among the first `i` steps has popped and stored, of those
steps that `here` selects; the zero object when there is none. -/
def lastStored (ρ : Nat → Vm W) (op : OpType) (k : Nat) (here : Nat → Bool) : Nat → ObjectT
  | 0 => ObjectT.zero
  | i + 1 =>
    if (ρ i).executes op k && here i then (ρ i).topObject.getD ObjectT.zero
    else lastStored ρ op k here i

/-- The activations open before step `i`, innermost first, each named by the state it starts from:
0 for the code that runs first, `i + 1` for the callee of a call at step `i`. -/
def activations (ρ : Nat → Vm W) : Nat → List Nat
  | 0 => [0]
  | i + 1 =>
    match (ρ i).nextOp with
    | some .call => (i + 1) :: activations ρ i
    | some .ret => (activations ρ i).tail
    | _ => activations ρ i

/-- The activation that step `i` belongs to. -/
def activation (ρ : Nat → Vm W) (i : Nat) : Option Nat := (activations ρ i).head?

theorem activations_le : ∀ (i : Nat), ∀ c ∈ activations ρ i, c ≤ i
  | 0 => by
    intro c hc
    exact Nat.le_of_eq (List.mem_singleton.1 hc)
  | i + 1 => by
    intro c hc
    have ih := activations_le i
    unfold activations at hc
    split at hc
    · rcases List.mem_cons.1 hc with rfl | hc
      · exact Nat.le_refl _
      · exact Nat.le_succ_of_le (ih c hc)
    · exact Nat.le_succ_of_le (ih c (List.mem_of_mem_tail hc))
    · exact Nat.le_succ_of_le (ih c hc)

theorem activations_nodup : ∀ (i : Nat), (activations ρ i).Nodup
  | 0 => List.pairwise_singleton _ 0
  | i + 1 => by
    have ih := activations_nodup i
    unfold activations
    split
    · refine List.nodup_cons.2 ⟨fun hmem => ?_, ih⟩
      have := activations_le i _ hmem
      omega
    · exact ih.tail
    · exact ih

/-- A step that stores nothing adds nothing to the history. -/
theorem lastStored_skip {op : OpType} {here : Nat → Bool} (h : (ρ i).executes op k = false ∨ here i = false) :
    lastStored ρ op k here (i + 1) = lastStored ρ op k here i := by
  have hcond : ((ρ i).executes op k && here i) = false := by
    rcases h with h | h <;> simp [h]
  rw [lastStored, hcond]
  rfl

/-- Before anything of it has run, an activation has stored nothing. -/
theorem lastStored_fresh {op : OpType} {here : Nat → Bool} (h : ∀ j < i, here j = false) :
    lastStored ρ op k here i = ObjectT.zero := by
  induction i with
  | zero => rfl
  | succ i ih =>
    rw [lastStored_skip (.inr (h i (Nat.lt_succ_self i)))]
    exact ih fun j hj => h j (Nat.lt_succ_of_lt hj)

theorem lastStored_store {op : OpType} {here : Nat → Bool} {o : ObjectT} (h : (ρ i).executes op k = true)
    (hhere : here i = true) (ho : (ρ i).topObject = some o) : lastStored ρ op k here (i + 1) = o := by
  rw [lastStored, h, hhere, ho]
  rfl

/-! ## The four instructions -/

theorem executes_nextOp {op : OpType} (h : vm.executes op k = true) : vm.nextOp = some op := by
  unfold Vm.executes at h
  unfold Vm.nextOp
  cases hinst : vm.program.code.get? vm.ip with
  | none => rw [hinst] at h; cases h
  | some inst =>
    rw [hinst, Bool.and_eq_true, beq_iff_eq] at h
    exact h.1

/-- A step of the opcode that the state executes. -/
theorem exec_of_executes {op : OpType} (h : vm.executes op k = true) (hstep : tvmExecOpcode env vm = .ok (.ok, vm')) :
    ∃ inst, inst.operand.ui32.toNat = k ∧ tvmExecOp env op inst vm = .ok (.ok, vm') := by
  obtain ⟨inst, hinst, hexec⟩ := Except.bind_ok hstep
  unfold Vm.executes at h
  rw [CArray.load_ok.1 hinst, Bool.and_eq_true, beq_iff_eq, beq_iff_eq] at h
  unfold tvmExecInst at hexec
  rw [h.1] at hexec
  exact ⟨inst, h.2, hexec⟩

theorem executes_inj {op op' : OpType} {k' : Nat} (h : vm.executes op k = true) (h' : vm.executes op' k' = true) :
    op = op' ∧ k = k' := by
  unfold Vm.executes at h h'
  cases hinst : vm.program.code.get? vm.ip with
  | none => rw [hinst] at h; cases h
  | some inst =>
    rw [hinst, Bool.and_eq_true, beq_iff_eq, beq_iff_eq] at h h'
    exact ⟨Option.some.inj (h.1.symm.trans h'.1), h.2.symm.trans h'.2⟩

/-- Every successful step executes one of the opcodes. -/
theorem step_executes (hstep : tvmExecOpcode env vm = .ok (.ok, vm')) :
    ∃ inst op, vm.executes op inst.operand.ui32.toNat = true ∧ tvmExecOp env op inst vm = .ok (.ok, vm') ∧
      Effect env.frames op inst vm vm' := by
  obtain ⟨inst, op, hinst, hop, heff⟩ := tvmExecOpcode_effect hstep
  have hexec : vm.executes op inst.operand.ui32.toNat = true := by
    rw [Vm.nextOp, hinst] at hop
    unfold Vm.executes
    rw [hinst, Bool.and_eq_true, beq_iff_eq, beq_iff_eq]
    exact ⟨hop, rfl⟩
  refine ⟨inst, op, hexec, ?_, heff⟩
  rw [tvmExecOpcode_eq hinst] at hstep
  unfold tvmExecInst at hstep
  rw [Vm.nextOp, hinst] at hop
  rwa [show OpType.ofNat? inst.type.toNat = some op from hop] at hstep

theorem not_executes_of_nextOp {op op' : OpType} (h : vm.nextOp = some op') (hne : op' ≠ op) :
    vm.executes op k = false := by
  by_contra hexec
  rw [executes_nextOp (Bool.not_eq_false _ ▸ hexec)] at h
  exact hne (Option.some.inj h).symm

theorem raise_ne_ok {e : TvmException} (he : e ≠ .ok) : (raise e vm : Except Fault (Ret W)) ≠ .ok (.ok, vm') := by
  intro h
  cases h
  exact he rfl

/-- A branch past its guard. -/
theorem of_guard {c : Prop} [Decidable c] {e : TvmException} {x : Except Fault (Ret W)} (he : e ≠ .ok)
    (h : (if c then raise e vm else x) = .ok (.ok, vm')) : ¬ c ∧ x = .ok (.ok, vm') := by
  by_cases hc : c
  · rw [if_pos hc] at h
    exact absurd h (raise_ne_ok he)
  · rw [if_neg hc] at h
    exact ⟨hc, h⟩

/-- A whole object is pushed. -/
theorem of_push {o : ObjectT} (h : pushWith (fun _ => .ok o) vm = .ok (.ok, vm')) :
    vm'.topObject = some o := by
  obtain ⟨old, hold, h⟩ := Except.bind_ok h
  rw [Except.bind_of_ok rfl] at h
  obtain ⟨w, hset, h⟩ := Except.bind_ok h
  obtain ⟨stack, hstack, rfl⟩ := Except.map_eq_ok hset
  obtain ⟨hlt, rfl⟩ := CArray.store_ok.1 hstack
  cases h
  exact CArray.get?_put_self _ _ hlt

theorem opGload_ok {inst : Opcode} (h : opGload inst vm = .ok (.ok, vm')) :
    ∃ o, vm.globalVars.get? inst.operand.ui32.toNat = some o ∧ vm'.topObject = some o := by
  obtain ⟨-, h⟩ := of_guard (by decide) h
  obtain ⟨-, h⟩ := of_guard (by decide) h
  obtain ⟨o, ho, h⟩ := Except.bind_ok h
  exact ⟨o, CArray.load_ok.1 ho, of_push h⟩

theorem opLoad_ok {inst : Opcode} (h : opLoad inst vm = .ok (.ok, vm')) :
    ∃ f o, vm.frames vm.frame = some f ∧ f.localVars.get? inst.operand.ui32.toNat = some o ∧
      vm'.topObject = some o := by
  obtain ⟨-, h⟩ := of_guard (by decide) h
  obtain ⟨-, h⟩ := of_guard (by decide) h
  obtain ⟨f, hf, h⟩ := Except.bind_ok h
  obtain ⟨o, ho, h⟩ := Except.bind_ok h
  exact ⟨f, o, FrameStore.load_ok.1 hf, CArray.load_ok.1 ho, of_push h⟩

theorem opGstore_ok {inst : Opcode} (h : opGstore inst vm = .ok (.ok, vm')) :
    ∃ o, vm.topObject = some o ∧ vm'.globalVars = vm.globalVars.put inst.operand.ui32.toNat o := by
  obtain ⟨-, h⟩ := of_guard (by decide) h
  obtain ⟨-, h⟩ := of_guard (by decide) h
  obtain ⟨o, ho, h⟩ := Except.bind_ok h
  obtain ⟨globalVars, hset, h⟩ := Except.bind_ok h
  obtain ⟨-, rfl⟩ := CArray.store_ok.1 hset
  cases h
  exact ⟨o, CArray.load_ok.1 ho, rfl⟩

theorem opStore_ok {inst : Opcode} (h : opStore inst vm = .ok (.ok, vm')) :
    ∃ o f, vm.topObject = some o ∧ vm.frames vm.frame = some f ∧ vm'.frame = vm.frame ∧ vm'.rsp = vm.rsp ∧
      vm'.frames = vm.frames.set vm.frame { f with localVars := f.localVars.put inst.operand.ui32.toNat o } := by
  obtain ⟨-, h⟩ := of_guard (by decide) h
  obtain ⟨-, h⟩ := of_guard (by decide) h
  obtain ⟨o, ho, h⟩ := Except.bind_ok h
  obtain ⟨f, hf, h⟩ := Except.bind_ok h
  obtain ⟨localVars, hset, h⟩ := Except.bind_ok h
  obtain ⟨-, rfl⟩ := CArray.store_ok.1 hset
  cases h
  exact ⟨o, f, CArray.load_ok.1 ho, FrameStore.load_ok.1 hf, rfl, rfl, rfl⟩

/-! ## Global variables -/

/-- After any number of steps a global variable holds what the latest store to it has stored. -/
theorem globals_hold {program : TvmProgram} {world : W} (hinit : tvmInit env program world = .ok (ρ 0))
    (hrun : Run env ρ n) : ∀ i ≤ n, ∀ k < tvmMaxLocalVar,
      (ρ i).globalVars.get? k = some (lastStored ρ .gstore k (fun _ => true) i)
  | 0, _, k, hk => by
    obtain ⟨⟨frame, frames⟩, -, h⟩ := Except.bind_ok hinit
    rw [← Except.ok.inj h]
    exact CArray.get?_fill _ hk
  | i + 1, hi, k, hk => by
    have ih := globals_hold hinit hrun i (by omega) k hk
    obtain ⟨inst, op, hexec, hstep, -⟩ := step_executes (hrun i hi)
    by_cases hop : op = .gstore
    · subst hop
      obtain ⟨o, ho, hput⟩ := opGstore_ok hstep
      rw [hput]
      by_cases hik : inst.operand.ui32.toNat = k
      · subst hik
        rw [CArray.get?_put_self _ _ hk, lastStored_store hexec rfl ho]
      · rw [CArray.get?_put_of_ne _ _ (Ne.symm hik), ih, lastStored_skip (.inl ?_)]
        by_contra hk'
        exact hik (executes_inj hexec (Bool.not_eq_false _ ▸ hk')).2
    · rw [(tvmExecOp_keeps env hop).of_ok hstep, ih]
      rw [lastStored_skip (.inl (not_executes_of_nextOp (executes_nextOp hexec) hop))]

/-! ## Local variables -/

/-- The frame at `a` holds what the activation `c` has stored last. -/
def Holds (ρ : Nat → Vm W) (i : Nat) (a : Addr) (c : Nat) : Prop :=
  ∃ f, (ρ i).frames a = some f ∧ ∀ k < tvmMaxLocalVar,
    f.localVars.get? k = some (lastStored ρ .store k (fun j => activation ρ j == some c) i)

/-- Behind the current frame lies one frame for each open activation, which holds its variables. -/
def Tracks (ρ : Nat → Vm W) (base : Addr) (i : Nat) : Prop :=
  ∃ path, Chain (ρ i).frames base (ρ i).rsp (ρ i).frame path ∧ List.Forall₂ (Holds ρ i) path (activations ρ i)

theorem Chain.path_eq {fs : FrameStore} {base a : Addr} {path : List Addr} (h : Chain fs base k a path) :
    ∃ rest, path = a :: rest := by
  cases h <;> exact ⟨_, rfl⟩

/-- A step that leaves a frame, and stores nothing in its activation. -/
theorem Holds.keep {a : Addr} {c : Nat} (h : Holds ρ i a c)
    (hlocals : ((ρ (i + 1)).frames a).map (·.localVars) = ((ρ i).frames a).map (·.localVars))
    (hskip : ∀ k, (ρ i).executes .store k = false ∨ (activation ρ i == some c) = false) : Holds ρ (i + 1) a c := by
  obtain ⟨f, hf, hvars⟩ := h
  rw [hf, Option.map_some] at hlocals
  obtain ⟨f', hf', heq⟩ := Option.map_eq_some_iff.1 hlocals
  refine ⟨f', hf', fun k hk => ?_⟩
  rw [heq, hvars k hk, lastStored_skip (hskip k)]

/-- A step that leaves a list of frames, and stores nothing in their activations. -/
theorem holds_keep {path : List Addr} {cs : List Nat} (h : List.Forall₂ (Holds ρ i) path cs)
    (hlocals : ∀ a ∈ path, ((ρ (i + 1)).frames a).map (·.localVars) = ((ρ i).frames a).map (·.localVars))
    (hskip : ∀ c ∈ cs, ∀ k, (ρ i).executes .store k = false ∨ (activation ρ i == some c) = false) :
    List.Forall₂ (Holds ρ (i + 1)) path cs := by
  induction h with
  | nil => exact .nil
  | cons hac _ ih =>
    refine .cons (hac.keep (hlocals _ List.mem_cons_self) (hskip _ List.mem_cons_self)) (ih ?_ ?_)
    · exact fun a ha => hlocals a (List.mem_cons_of_mem _ ha)
    · exact fun c hc => hskip c (List.mem_cons_of_mem _ hc)

/-- The activations after a step that neither calls nor returns. -/
theorem activations_same {op : OpType} (h : (ρ i).nextOp = some op) (hcall : op ≠ .call) (hret : op ≠ .ret) :
    activations ρ (i + 1) = activations ρ i := by
  rw [activations, h]
  cases op <;> first | rfl | exact absurd rfl hcall | exact absurd rfl hret

theorem activations_call (h : (ρ i).nextOp = some .call) : activations ρ (i + 1) = (i + 1) :: activations ρ i := by
  rw [activations, h]

theorem activations_ret (h : (ρ i).nextOp = some .ret) : activations ρ (i + 1) = (activations ρ i).tail := by
  rw [activations, h]

section Steps

variable {base : Addr} {inst : Opcode} {al : FrameAllocator}

/-- A store changes one variable of the current frame; the frames of the callers belong to other
activations. -/
theorem Tracks.store (h : Tracks ρ base i) (hexec : (ρ i).executes .store inst.operand.ui32.toNat = true)
    (hstep : opStore inst (ρ i) = .ok (.ok, ρ (i + 1))) : Tracks ρ base (i + 1) := by
  obtain ⟨path, hchain, hheld⟩ := h
  obtain ⟨o, f, ho, hf, hframe, hrsp, hframes⟩ := opStore_ok hstep
  have hacts := activations_same (executes_nextOp hexec) (by decide) (by decide)
  refine ⟨path, ?_, ?_⟩
  · rw [hframes, hrsp, hframe]
    exact hchain.setLocals hf rfl
  rw [hacts]
  have hnodup := hchain.nodup
  have hdistinct := activations_nodup (ρ := ρ) i
  obtain ⟨rest, rfl⟩ := hchain.path_eq
  obtain ⟨c, cs, ⟨g, hg, hvars⟩, hrest, hcs⟩ := List.forall₂_cons_left_iff.1 hheld
  rw [hcs] at hdistinct ⊢
  have hhere : activation ρ i = some c := by rw [activation, hcs]; rfl
  rw [hf] at hg
  cases hg
  refine .cons ⟨_, by rw [hframes, FrameStore.set_self], fun k hk => ?_⟩ (holds_keep hrest ?_ ?_)
  · by_cases hik : inst.operand.ui32.toNat = k
    · subst hik
      rw [lastStored_store hexec (by rw [hhere]; exact beq_self_eq_true _) ho]
      exact CArray.get?_put_self _ _ hk
    · have hother : (ρ i).executes .store k = false := by
        by_contra hk'
        exact hik (executes_inj hexec (Bool.not_eq_false _ ▸ hk')).2
      rw [lastStored_skip (.inl hother), ← hvars k hk]
      exact CArray.get?_put_of_ne _ _ (Ne.symm hik)
  · intro a ha
    have hne : a ≠ (ρ i).frame := fun he => (List.nodup_cons.1 hnodup).1 (he ▸ ha)
    rw [hframes, FrameStore.set_of_ne _ _ hne]
  · intro c' hc' k
    -- the callers' activations are other than the current one
    have hne : c ≠ c' := fun he => (List.nodup_cons.1 hdistinct).1 (he ▸ hc')
    right
    rw [hhere]
    exact beq_false_of_ne fun he => hne (Option.some.inj he)

/-- A call opens an activation that has stored nothing, with zeroed variables. -/
theorem Tracks.call (h : Tracks ρ base i) (hop : (ρ i).nextOp = some .call)
    (heff : Effect al .call inst (ρ i) (ρ (i + 1))) : Tracks ρ base (i + 1) := by
  obtain ⟨path, hchain, hheld⟩ := h
  obtain ⟨frame, frames, -, -, enter, hnext⟩ := heff.of_call
  obtain ⟨n, hn, hfree, -, hnew, hcaller, hother⟩ := tvmFrameNext_ok enter
  have hframes : (ρ (i + 1)).frames = frames := by rw [hnext]
  refine ⟨frame :: path, ?_, ?_⟩
  · rw [hnext]
    exact hchain.frameNext enter
  rw [activations_call hop]
  refine .cons ⟨_, by rw [hframes]; exact hnew, fun k hk => ?_⟩ (holds_keep hheld ?_ fun c _ k => .inl ?_)
  · rw [lastStored_fresh]
    · exact CArray.get?_fill _ hk
    · intro j hj
      refine beq_false_of_ne fun he => ?_
      have := activations_le j _ (List.mem_of_mem_head? he)
      omega
  · intro a ha
    have hne : a ≠ frame := fun he => by
      obtain ⟨m, hm⟩ := hchain.live_of_mem a ha
      rw [he, hfree] at hm
      cases hm
    rw [hframes]
    by_cases hcur : a = (ρ i).frame
    · rw [hcur, hcaller, hn]
      rfl
    · rw [hother a hcur hne]
  · exact not_executes_of_nextOp hop (by decide)

/-- A return closes the current activation and frees its frame. -/
theorem Tracks.ret (h : Tracks ρ base i) (hop : (ρ i).nextOp = some .ret)
    (heff : Effect al .ret inst (ρ i) (ρ (i + 1))) : Tracks ρ base (i + 1) := by
  obtain ⟨path, hchain, hheld⟩ := h
  obtain ⟨ip, frame, frames, deep, leave, hnext⟩ := heff.of_ret
  have hk : (ρ i).rsp = (ρ i).rsp - 1 + 1 := by omega
  rw [hk] at hchain
  have hnodup := hchain.nodup
  obtain ⟨rest, rfl, herase, hchain'⟩ := hchain.framePrev leave
  obtain ⟨c, cs, -, hrest, hcs⟩ := List.forall₂_cons_left_iff.1 hheld
  refine ⟨rest, ?_, ?_⟩
  · rw [hnext]
    exact hchain'
  rw [activations_ret hop, hcs]
  refine holds_keep hrest (fun a ha => ?_) fun c _ k => .inl (not_executes_of_nextOp hop (by decide))
  have hne : a ≠ (ρ i).frame := fun he => (List.nodup_cons.1 hnodup).1 (he ▸ ha)
  rw [hnext]
  show (frames a).map _ = _
  rw [herase, FrameStore.erase_of_ne _ hne]

/-- Every other step leaves the frames and the activations. -/
theorem Tracks.other {op : OpType} (h : Tracks ρ base i) (hop : (ρ i).nextOp = some op)
    (heff : Effect al op inst (ρ i) (ρ (i + 1))) (hstore : op ≠ .store) (hcall : op ≠ .call) (hret : op ≠ .ret) :
    Tracks ρ base (i + 1) := by
  obtain ⟨path, hchain, hheld⟩ := h
  obtain ⟨hframes, hframe, hrsp⟩ := heff.same_frames hstore hcall hret
  refine ⟨path, ?_, ?_⟩
  · rw [hframes, hrsp, hframe]
    exact hchain
  rw [activations_same hop hcall hret]
  exact holds_keep hheld (fun a _ => by rw [hframes]) fun c _ k => .inl (not_executes_of_nextOp hop hstore)

end Steps

/-- The frames hold, through the whole run, what their activations have stored. -/
theorem Run.tracks {program : TvmProgram} {world : W} (hinit : tvmInit env program world = .ok (ρ 0))
    (hrun : Run env ρ n) : ∀ i ≤ n, Tracks ρ (ρ 0).frame i
  | 0, _ => by
    obtain ⟨⟨frame, frames⟩, hf, h⟩ := Except.bind_ok hinit
    unfold tvmFrameInit at hf
    split at hf
    · cases hf
      have h0 := Except.ok.inj h
      refine ⟨[(ρ 0).frame], ?_, .cons ⟨⟨none, none, .fill ObjectT.zero⟩, ?_, fun k hk => ?_⟩ .nil⟩
      · rw [← h0]
        exact .base (FrameStore.set_self ..)
      · rw [← h0]
        exact FrameStore.set_self ..
      · exact CArray.get?_fill _ hk
    · cases hf
  | i + 1, hi => by
    have ih := Run.tracks hinit hrun i (by omega)
    obtain ⟨inst, op, hexec, hstep, heff⟩ := step_executes (hrun i hi)
    by_cases hstore : op = .store
    · subst hstore
      exact ih.store hexec hstep
    by_cases hcall : op = .call
    · subst hcall
      exact ih.call (executes_nextOp hexec) heff
    by_cases hret : op = .ret
    · subst hret
      exact ih.ret (executes_nextOp hexec) heff
    exact ih.other (executes_nextOp hexec) heff hstore hcall hret

/-- In every run from `tvm_init`, a load of a global variable pushes the object that the latest
store to it has popped, and a load of a local variable the object that the latest store to it in
the same activation has popped; the zero object when there is no such store. -/
theorem loads_latest_store (env : Env W) (program : TvmProgram) (world : W) (ρ : Nat → Vm W) (n : Nat)
    (hinit : tvmInit env program world = .ok (ρ 0)) (hrun : Run env ρ n) :
    ∀ i < n, ∀ k,
      ((ρ i).executes .gload k = true → (ρ (i + 1)).topObject = some (lastStored ρ .gstore k (fun _ => true) i)) ∧
      ((ρ i).executes .load k = true →
        (ρ (i + 1)).topObject = some (lastStored ρ .store k (fun j => activation ρ j == activation ρ i) i)) := by
  intro i hi k
  constructor
  · intro hexec
    obtain ⟨inst, rfl, hstep⟩ := exec_of_executes hexec (hrun i hi)
    obtain ⟨o, ho, htop⟩ := opGload_ok hstep
    rw [globals_hold hinit hrun i (Nat.le_of_lt hi) _ (CArray.get?_lt ho)] at ho
    rw [htop, ho]
  · intro hexec
    obtain ⟨inst, rfl, hstep⟩ := exec_of_executes hexec (hrun i hi)
    obtain ⟨f, o, hf, ho, htop⟩ := opLoad_ok hstep
    obtain ⟨path, hchain, hheld⟩ := hrun.tracks hinit i (Nat.le_of_lt hi)
    obtain ⟨rest, rfl⟩ := hchain.path_eq
    obtain ⟨c, cs, ⟨g, hg, hvars⟩, -, hcs⟩ := List.forall₂_cons_left_iff.1 hheld
    rw [hf] at hg
    cases hg
    have hhere : activation ρ i = some c := by rw [activation, hcs]; rfl
    rw [hvars _ (CArray.get?_lt ho)] at ho
    rw [htop, ← ho, hhere]

/-- `push 5`, `store 0`, `call 6`, `load 0`, `gload 0`, `hlt`, and at 6 `push 9`, `gstore 0`, `push 8`, `store 0`, `ret`. -/
def storeInCallee : TvmProgram :=
  let number (o : OpType) (v : BitVec 64) : Opcode := ⟨o.code, ⟨StackObjType.number.code, v⟩⟩
  { TvmProgram.zero with
    code := TvmProgram.zero.code.putAll 0
      [number .push 5, number .store 0, number .call 6, number .load 0, number .gload 0, number .halt 0,
        number .push 9, number .gstore 0, number .push 8, number .store 0, number .ret 0]
    size := 11 }

/-- The state behind `i` steps from `vm`, as long as they return. -/
def stateAfter (env : Env W) (vm : Vm W) : Nat → Vm W
  | 0 => vm
  | i + 1 =>
    match tvmExecOpcode env (stateAfter env vm i) with
    | .ok (_, vm') => vm'
    | .error _ => stateAfter env vm i

/-- `n` steps from `vm` raise no exception. -/
def stepsRun (env : Env W) (vm : Vm W) (n : Nat) : Bool :=
  (List.range n).all fun i => (tvmExecOpcode env (stateAfter env vm i)).okAnd fun r => r.1 == .ok

theorem run_stateAfter {env : Env W} {vm : Vm W} {n : Nat} (h : stepsRun env vm n = true) : Run env (stateAfter env vm) n := by
  intro i hi
  obtain ⟨⟨e, vm'⟩, hstep, he⟩ := Except.okAnd_eq_true (List.all_eq_true.1 h i (List.mem_range.2 hi))
  obtain rfl : e = .ok := eq_of_beq he
  rw [stateAfter, hstep]

/-- Behind the call the local variable has the 5 of its activation, and the global one the 9 of the callee. -/
theorem loads_latest_store_callee : ∃ ρ : Nat → Vm Unit, tvmInit (.bare [64, 128]) storeInCallee () = .ok (ρ 0) ∧
    Run (.bare [64, 128]) ρ 10 ∧ (ρ 8).executes .load 0 = true ∧ (ρ 9).topObject = some ⟨StackObjType.number.code, 5⟩ ∧
    (ρ 9).executes .gload 0 = true ∧ (ρ 10).topObject = some ⟨StackObjType.number.code, 9⟩ := by
  obtain ⟨vm, hinit, hsteps, hload, hlocal, hgload, hglobal⟩ : ∃ vm : Vm Unit,
      tvmInit (.bare [64, 128]) storeInCallee () = .ok vm ∧ stepsRun (.bare [64, 128]) vm 10 = true ∧
      (stateAfter (.bare [64, 128]) vm 8).executes .load 0 = true ∧
      lastStored (stateAfter (.bare [64, 128]) vm) .store 0 (fun j => activation (stateAfter (.bare [64, 128]) vm) j ==
        activation (stateAfter (.bare [64, 128]) vm) 8) 8 = ⟨StackObjType.number.code, 5⟩ ∧
      (stateAfter (.bare [64, 128]) vm 9).executes .gload 0 = true ∧
      lastStored (stateAfter (.bare [64, 128]) vm) .gstore 0 (fun _ => true) 9 = ⟨StackObjType.number.code, 9⟩ :=
    ⟨_, rfl, rfl, rfl, rfl, rfl, rfl⟩
  have hrun := run_stateAfter hsteps
  have hloads := loads_latest_store (.bare [64, 128]) storeInCallee () _ 10 hinit hrun
  refine ⟨_, hinit, hrun, hload, ?_, hgload, ?_⟩
  · exact ((hloads 8 (by decide) 0).2 hload).trans (congrArg some hlocal)
  · exact ((hloads 9 (by decide) 0).1 hgload).trans (congrArg some hglobal)

end TileVm
