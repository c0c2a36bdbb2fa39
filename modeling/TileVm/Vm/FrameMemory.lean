/-
The memory of frames over whole runs. There is one frame for each open call and one for the outermost
level, and no other: a call allocates one and the return frees it. The frame that is current at the end
is freed behind the loop; those of the callers are not.
-/
import TileVm.Vm.Activations

namespace TileVm

variable {W : Type} {al : FrameAllocator} {op : OpType} {inst : Opcode} {vm vm' : Vm W} {base : Addr}

/-- Behind the current frame lies one frame for each open call, down to `base`, and no others are allocated. -/
def FramesOfCalls (base : Addr) (vm : Vm W) : Prop :=
  ∃ ls, Records vm.frames base vm.frame ls ∧ ls.length = vm.rsp + 1

/-! ## One step -/

theorem Effect.framesOfCalls (h : Effect al op inst vm vm') (hf : FramesOfCalls base vm) : FramesOfCalls base vm' := by
  obtain ⟨ls, hrecords, hlen⟩ := hf
  obtain ⟨l, ls, rfl⟩ : ∃ l ls', ls = l :: ls' := List.exists_cons_of_length_eq_add_one hlen
  cases h with
  | @next w _ same =>
    refine ⟨l :: ls, ?_, ?_⟩
    · show Records w.frames base w.frame _
      rw [same.frames, same.frame]
      exact hrecords
    · show _ = w.rsp + 1
      rw [same.rsp]
      exact hlen
  | @store w n o _ same current =>
    refine ⟨n.localVars.put inst.operand.ui32.toNat o :: ls, ?_, ?_⟩
    · show Records (w.frames.set w.frame _) base w.frame _
      rw [same.frames, same.frame]
      exact hrecords.store current _
    · show _ = w.rsp + 1
      rw [same.rsp]
      exact hlen
  | @jump w _ _ same =>
    refine ⟨l :: ls, ?_, ?_⟩
    · show Records w.frames base w.frame _
      rw [same.frames, same.frame]
      exact hrecords
    · show _ = w.rsp + 1
      rw [same.rsp]
      exact hlen
  | call _ _ _ enter => exact ⟨_, hrecords.frameNext enter, congrArg Nat.succ hlen⟩
  | @ret ip frame frames _ deep _ leave =>
    rw [List.length_cons] at hlen
    obtain ⟨l', ls, rfl⟩ : ∃ l' ls', ls = l' :: ls' := List.exists_cons_of_length_pos (by omega)
    obtain ⟨b, fs, hprev, hrest⟩ := hrecords.framePrev
    cases leave.symm.trans hprev
    refine ⟨l' :: ls, hrest, ?_⟩
    show _ = vm.rsp - 1 + 1
    rw [List.length_cons] at hlen ⊢
    omega
  | halt => exact ⟨l :: ls, hrecords, hlen⟩

theorem tvmInit_framesOfCalls {env : Env W} {p : TvmProgram} {world : W} (h : tvmInit env p world = .ok vm) :
    FramesOfCalls vm.frame vm :=
  ⟨_, (tvmInit_represents h).frames, congrArg Nat.succ (tvmInit_represents h).rsp.symm⟩

theorem tvmInit_frame_ne {env : Env W} {p : TvmProgram} {world : W} (h : tvmInit env p world = .ok vm) : vm.frame ≠ 0 := by
  unfold tvmInit tvmFrameInit at h
  obtain ⟨⟨frame, frames⟩, hframe, h⟩ := Except.bind_ok h
  cases h
  split at hframe
  · rename_i a ha
    cases hframe
    exact (env.frames.fresh _ _ ha).2
  · cases hframe

theorem FramesOfCalls.frame_ne (h : FramesOfCalls base vm) (hbase : base ≠ 0) : vm.frame ≠ 0 := by
  obtain ⟨ls, ⟨path, hc, -, -⟩, -⟩ := h
  generalize ls.length - 1 = k at hc
  cases hc with
  | base => exact hbase
  | call _ _ _ _ ne => exact ne

/-- The loop of `tvm_run` keeps it. -/
theorem loop_framesOfCalls {env : Env W} {fuel : Nat} (hf : FramesOfCalls base vm)
    (h : Loop.run tvmRunCond (tvmRunBody env) fuel vm = .ok vm') : FramesOfCalls base vm' := by
  refine (Loop.run_inv (FramesOfCalls base) ?_ fuel vm vm' hf h).1
  intro s s' hs _ hbody
  obtain ⟨_, _, _, _, heff⟩ := tvmExecOpcode_effect (tvmRunBody_ok hbody)
  exact heff.framesOfCalls hs

/-! ## Whole runs -/

/-- The allocated frames: the current one, and those of the callers behind it. -/
theorem FramesOfCalls.callers (h : FramesOfCalls base vm) : ∃ callers : List Addr, (vm.frame :: callers).Nodup ∧
    callers.length = vm.rsp ∧ (vm.frame :: callers).getLast? = some base ∧
    ∀ a, (vm.frames a).isSome = true ↔ a ∈ vm.frame :: callers := by
  obtain ⟨ls, ⟨path, hc, hall, -⟩, hlen⟩ := h
  have hlength := chain_length hc
  obtain ⟨-, callers, -, hpath⟩ := chain_head hc
  rw [hpath, List.length_cons, hlen] at hlength
  refine ⟨callers, hpath ▸ hc.nodup, by omega, hpath ▸ hc.getLast?, fun a => ?_⟩
  rw [← hpath]
  constructor
  · intro ha
    obtain ⟨n, hn⟩ := Option.isSome_iff_exists.mp ha
    exact hall a n hn
  · intro ha
    obtain ⟨n, hn⟩ := hc.live_of_mem a ha
    rw [hn]
    rfl

/-- In every state of a run there is one frame more than open calls, and when `tvm_run` has come to its end the frames
of the calls that are still open are left allocated, and no others: none if and only if the program ends at the outermost
level. -/
theorem frames_left (env : Env W) (p : TvmProgram) (world : W) (vm0 : Vm W) (hinit : tvmInit env p world = .ok vm0) :
    (∀ ρ n, ρ 0 = vm0 → Loop.Trace tvmRunCond (tvmRunBody env) ρ n → ∀ i ≤ n, ∃ frames : List Addr,
      frames.Nodup ∧ frames.length = (ρ i).rsp + 1 ∧ frames.head? = some (ρ i).frame ∧
        frames.getLast? = some vm0.frame ∧ ∀ a, ((ρ i).frames a).isSome = true ↔ a ∈ frames) ∧
    ∀ fuel vm, tvmRun env fuel vm0 = .ok vm → ∃ left : List Addr, left.Nodup ∧ left.length = vm.rsp ∧
      (∀ a, (vm.frames a).isSome = true ↔ a ∈ left) := by
  have hf := tvmInit_framesOfCalls hinit
  constructor
  · rintro ρ n rfl hrun i hi
    have hi := hrun.inv (FramesOfCalls (ρ 0).frame) hf (fun i _ hs hbody _ => by
      obtain ⟨_, _, _, _, heff⟩ := tvmExecOpcode_effect (tvmRunBody_ok hbody)
      exact heff.framesOfCalls hs) i hi
    obtain ⟨callers, hnodup, hlen, hlast, hall⟩ := hi.callers
    exact ⟨_, hnodup, congrArg Nat.succ hlen, rfl, hlast, hall⟩
  · intro fuel vm hrun
    obtain ⟨vm', hloop, hrun⟩ := Except.bind_ok hrun
    have hends := loop_framesOfCalls hf hloop
    obtain ⟨callers, hnodup, hlen, -, hall⟩ := hends.callers
    obtain ⟨hnew, hnodup⟩ := List.nodup_cons.1 hnodup
    unfold tvmFrameFree at hrun
    rw [if_neg (hends.frame_ne (tvmInit_frame_ne hinit))] at hrun
    dsimp only at hrun
    obtain ⟨n, hn⟩ := Option.isSome_iff_exists.mp ((hall vm'.frame).mpr List.mem_cons_self)
    rw [hn] at hrun
    cases hrun
    refine ⟨callers, hnodup, hlen, fun a => ?_⟩
    show (vm'.frames.erase vm'.frame a).isSome = true ↔ _
    by_cases ha : a = vm'.frame
    · rw [ha, FrameStore.erase_self]
      simpa using hnew
    · rw [FrameStore.erase_of_ne _ ha, hall a, List.mem_cons, or_iff_right ha]

/-- `call 1` and `hlt`, which ends inside the call. -/
def callHalt : TvmProgram :=
  { TvmProgram.zero with
    code := (TvmProgram.zero.code.put 0 ⟨OpType.call.code, ⟨StackObjType.number.code, 1⟩⟩).put 1 ⟨OpType.halt.code, .zero⟩
    size := 2 }

/-- Its run leaves one frame. -/
theorem frames_left_callHalt : ∃ vm0 vm : Vm Unit, tvmInit (.bare [64, 128]) callHalt () = .ok vm0 ∧
    tvmRun (.bare [64, 128]) 2 vm0 = .ok vm ∧
      ∃ left : List Addr, left.Nodup ∧ left.length = 1 ∧ ∀ a, (vm.frames a).isSome = true ↔ a ∈ left := by
  have hrun : ∃ vm0 vm : Vm Unit, tvmInit (.bare [64, 128]) callHalt () = .ok vm0 ∧
      tvmRun (.bare [64, 128]) 2 vm0 = .ok vm ∧ vm.rsp = 1 := ⟨_, _, rfl, rfl, rfl⟩
  obtain ⟨vm0, vm, hinit, hrun, hrsp⟩ := hrun
  obtain ⟨left, hnodup, hlen, hall⟩ := (frames_left (.bare [64, 128]) callHalt () vm0 hinit).2 2 vm hrun
  exact ⟨vm0, vm, hinit, hrun, left, hnodup, hlen.trans hrsp, hall⟩

end TileVm
