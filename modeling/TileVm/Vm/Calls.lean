/-
A call and its matching return. Between the two the machine runs strictly deeper than the caller:
the frame chain hangs on the caller's frame, whose locals no step touches, and the return stack
keeps the saved address and everything below it.
-/
import TileVm.Vm.Safety

namespace TileVm

variable {W : Type} {al : FrameAllocator} {op : OpType} {inst : Opcode} {vm vm' : Vm W} {base : Addr}

/-! ## One step -/

namespace Effect

theorem rsp_cases (h : Effect al op inst vm vm') :
    vm'.rsp = vm.rsp ∨ (op = .call ∧ vm'.rsp = vm.rsp + 1) ∨ (op = .ret ∧ 0 < vm.rsp ∧ vm'.rsp = vm.rsp - 1) := by
  cases h with
  | next _ same => exact .inl same.rsp
  | store _ same => exact .inl same.rsp
  | jump _ _ same => exact .inl same.rsp
  | call is => exact .inr (.inl ⟨is, rfl⟩)
  | ret is deep => exact .inr (.inr ⟨is, deep, rfl⟩)
  | halt => exact .inl rfl

/-- No step changes an entry of the return stack below the stack pointer. -/
theorem returnStack_below (h : Effect al op inst vm vm') {i : Nat} (hi : i < vm.rsp) :
    vm'.returnStack.get? i = vm.returnStack.get? i := by
  cases h with
  | next _ same => exact congrArg (·.get? i) same.returnStack
  | store _ same => exact congrArg (·.get? i) same.returnStack
  | jump _ _ same => exact congrArg (·.get? i) same.returnStack
  | call => exact CArray.get?_put_of_ne _ _ (by omega)
  | ret => rfl
  | halt => rfl

/-- A step in a callee, however deep, leaves the local variables of a frame further down. -/
theorem locals_below {k : Nat} {path : List Addr} (h : Effect al op inst vm vm')
    (hc : Chain vm.frames base k vm.frame path) (hk : 0 < k) :
    (vm'.frames base).map (·.localVars) = (vm.frames base).map (·.localVars) := by
  have hne : base ≠ vm.frame := (hc.head_ne_base hk).symm
  cases h with
  | @next vm' _ same => exact congrArg (fun fs : FrameStore => (fs base).map (·.localVars)) same.frames
  | @store vm' n o _ same _ =>
    show ((vm'.frames.set vm'.frame _) base).map _ = _
    rw [same.frame, FrameStore.set_of_ne _ _ hne, same.frames]
  | @jump vm' _ _ same => exact congrArg (fun fs : FrameStore => (fs base).map (·.localVars)) same.frames
  | @call frame frames _ _ _ enter =>
    obtain ⟨n, -, hfree, -, -, -, hother⟩ := tvmFrameNext_ok enter
    have hnew : base ≠ frame := by
      rintro rfl
      obtain ⟨m, hm⟩ := hc.live_of_mem _ hc.base_mem
      rw [hfree] at hm; cases hm
    show (frames base).map _ = _
    rw [hother base hne hnew]
  | @ret ip frame frames _ _ _ leave =>
    obtain ⟨k, rfl⟩ : ∃ j, k = j + 1 := ⟨k - 1, by omega⟩
    obtain ⟨rest, -, herase, -⟩ := hc.framePrev leave
    show (frames base).map _ = _
    rw [herase, FrameStore.erase_of_ne _ hne]
  | halt => rfl

/-- The effect of a `call`. -/
theorem of_call (h : Effect al .call inst vm vm') : ∃ frame frames,
    vm.rsp < returnStackCapacity ∧ inst.operand.ui32.toNat < vm.program.size ∧
      tvmFrameNext al vm.frames vm.frame = .ok (frame, frames) ∧
      vm' = { vm with
              returnStack := vm.returnStack.put vm.rsp (wordSucc vm.ip), rsp := vm.rsp + 1,
              ip := inst.operand.ui32.toNat, frame, frames } := by
  cases h with
  | next falls => cases falls
  | store is => cases is
  | jump is => rcases is with is | is | is <;> cases is
  | call _ room target enter => exact ⟨_, _, room, target, enter, rfl⟩
  | ret is => cases is
  | halt is => cases is

/-- The effect of a `ret`. -/
theorem of_ret (h : Effect al .ret inst vm vm') : ∃ ip frame frames,
    0 < vm.rsp ∧ tvmFramePrev vm.frames vm.frame = .ok (frame, frames) ∧
      vm' = { vm with rsp := vm.rsp - 1, ip, frame, frames } := by
  cases h with
  | next falls => cases falls
  | store is => cases is
  | jump is => rcases is with is | is | is <;> cases is
  | call is => cases is
  | ret _ deep _ leave => exact ⟨_, _, _, deep, leave, rfl⟩
  | halt is => cases is

/-- The other opcodes leave the frames alone. -/
theorem same_frames (h : Effect al op inst vm vm') (hstore : op ≠ .store) (hcall : op ≠ .call) (hret : op ≠ .ret) :
    vm'.frames = vm.frames ∧ vm'.frame = vm.frame ∧ vm'.rsp = vm.rsp := by
  cases h with
  | next _ same => exact ⟨same.frames, same.frame, same.rsp⟩
  | store is => exact absurd is hstore
  | jump _ _ same => exact ⟨same.frames, same.frame, same.rsp⟩
  | call is => exact absurd is hcall
  | ret is => exact absurd is hret
  | halt => exact ⟨rfl, rfl, rfl⟩

/-- Every call starts its callee with zeroed local variables. -/
theorem call_locals (h : Effect al .call inst vm vm') :
    (vm'.frames vm'.frame).map (·.localVars) = some (.fill ObjectT.zero) := by
  obtain ⟨frame, frames, -, -, enter, rfl⟩ := h.of_call
  obtain ⟨-, -, -, -, hnew, -⟩ := tvmFrameNext_ok enter
  show (frames frame).map _ = _
  rw [hnew]; rfl

end Effect

/-! ## Inside a call -/

/-- `vm` runs in a call made in `vm0`, or deeper. -/
structure Inside (vm0 vm : Vm W) : Prop where
  deep : vm0.rsp < vm.rsp
  chain : ∃ path, Chain vm.frames vm0.frame (vm.rsp - vm0.rsp) vm.frame path
  locals : (vm.frames vm0.frame).map (·.localVars) = (vm0.frames vm0.frame).map (·.localVars)
  below : ∀ i < vm0.rsp, vm.returnStack.get? i = vm0.returnStack.get? i
  saved : vm.returnStack.get? vm0.rsp = some (wordSucc vm0.ip)

namespace Inside

variable {vm0 : Vm W}

/-- The call itself. -/
theorem enter (h : Effect al .call inst vm0 vm) : Inside vm0 vm := by
  obtain ⟨frame, frames, room, -, enter, rfl⟩ := h.of_call
  obtain ⟨n, hn, hfree, -, -, hn', -⟩ := tvmFrameNext_ok enter
  refine ⟨Nat.lt_succ_self _, ⟨[frame, vm0.frame], ?_⟩, ?_, fun i hi => ?_, ?_⟩
  · show Chain frames vm0.frame (vm0.rsp + 1 - vm0.rsp) frame _
    rw [Nat.add_sub_cancel_left]
    exact (Chain.base hn).frameNext enter
  · show (frames vm0.frame).map _ = _
    rw [hn', hn]; rfl
  · exact CArray.get?_put_of_ne _ _ (by omega)
  · exact CArray.get?_put_self _ _ room

/-- A step that stays deeper than the caller. -/
theorem step (hin : Inside vm0 vm) (h : Effect al op inst vm vm') (hstay : vm0.rsp < vm'.rsp) : Inside vm0 vm' := by
  obtain ⟨path, hc⟩ := hin.chain
  have hdeep := hin.deep
  refine ⟨hstay, h.chain (by omega) hc (by omega), ?_, fun i hi => ?_, ?_⟩
  · rw [h.locals_below hc (by omega), hin.locals]
  · rw [h.returnStack_below (by omega), hin.below i hi]
  · rw [h.returnStack_below hdeep, hin.saved]

/-- The step that comes back to the caller's depth restores the caller. -/
theorem leave (hin : Inside vm0 vm) (h : Effect al op inst vm vm') (hback : vm'.rsp = vm0.rsp) :
    vm'.ip = wordSucc vm0.ip ∧ vm'.frame = vm0.frame ∧
      (vm'.frames vm0.frame).map (·.localVars) = (vm0.frames vm0.frame).map (·.localVars) ∧
      ∀ i < vm0.rsp, vm'.returnStack.get? i = vm0.returnStack.get? i := by
  obtain ⟨path, hc⟩ := hin.chain
  have hdeep := hin.deep
  have hlocals := (h.locals_below hc (by omega)).trans hin.locals
  have hbelow : ∀ i < vm0.rsp, vm'.returnStack.get? i = vm0.returnStack.get? i := fun i hi => by
    rw [h.returnStack_below (by omega), hin.below i hi]
  have hrsp := h.rsp_cases
  cases h with
  | ret is deep saved leave =>
    have hr : vm.rsp - 1 = vm0.rsp := hback
    rw [hr, hin.saved] at saved
    have hk : vm.rsp - vm0.rsp = 0 + 1 := by omega
    rw [hk] at hc
    obtain ⟨rest, -, -, hrest⟩ := hc.framePrev leave
    refine ⟨(Option.some.inj saved).symm, ?_, hlocals, hbelow⟩
    cases hrest with
    | base => rfl
  | next _ same => have := same.rsp; exact absurd (this.symm.trans hback) (by omega)
  | store _ same => have := same.rsp; exact absurd (this.symm.trans hback) (by omega)
  | jump _ _ same => have := same.rsp; exact absurd (this.symm.trans hback) (by omega)
  | call => exact absurd hback (by show vm.rsp + 1 ≠ _; omega)
  | halt => exact absurd hback (by show vm.rsp ≠ _; omega)

end Inside

/-! ## Runs -/

/-- `n` successful steps of a program. -/
def Run (env : Env W) (ρ : Nat → Vm W) (n : Nat) : Prop :=
  ∀ i < n, tvmExecOpcode env (ρ i) = .ok (.ok, ρ (i + 1))

theorem Run.effect {env : Env W} {ρ : Nat → Vm W} {n i : Nat} {op : OpType} (h : Run env ρ n) (hi : i < n)
    (hop : (ρ i).nextOp = some op) : ∃ inst, Effect env.frames op inst (ρ i) (ρ (i + 1)) := by
  obtain ⟨inst, op', -, hop', heff⟩ := tvmExecOpcode_effect (h i hi)
  rw [hop] at hop'
  cases hop'
  exact ⟨inst, heff⟩

/-- Up to the first return to the caller's depth, the run stays inside the call. -/
theorem Run.inside {env : Env W} {ρ : Nat → Vm W} {k : Nat} (h : Run env ρ (k + 1)) (hcall : (ρ 0).nextOp = some .call)
    (hfirst : ∀ i, 0 < i → i < k → (ρ i).nextOp = some .ret → (ρ (i + 1)).rsp ≠ (ρ 0).rsp) :
    ∀ i, i < k → Inside (ρ 0) (ρ (i + 1))
  | 0, _ => by
    obtain ⟨inst, heff⟩ := h.effect (Nat.succ_pos k) hcall
    exact .enter heff
  | i + 1, hi => by
    have hin := Run.inside h hcall hfirst i (by omega)
    obtain ⟨inst, op, -, hop, heff⟩ := tvmExecOpcode_effect (h (i + 1) (by omega))
    refine hin.step heff ?_
    have hdeep := hin.deep
    rcases heff.rsp_cases with hr | ⟨-, hr⟩ | ⟨rfl, -, hr⟩
    · omega
    · omega
    · have := hfirst (i + 1) (Nat.succ_pos i) hi hop
      omega

/-- A call and the first later return to its depth: the machine continues after the call, in the
caller's frame with its local variables, over the caller's return addresses; and every call of the
run has started its callee with zeroed local variables. -/
theorem call_returns (env : Env W) (ρ : Nat → Vm W) (k : Nat) (hrun : Run env ρ (k + 1))
    (hcall : (ρ 0).nextOp = some .call) (hret : (ρ k).nextOp = some .ret) (hback : (ρ (k + 1)).rsp = (ρ 0).rsp)
    (hfirst : ∀ i, 0 < i → i < k → (ρ i).nextOp = some .ret → (ρ (i + 1)).rsp ≠ (ρ 0).rsp) :
    (ρ (k + 1)).ip = (ρ 0).ip + 1 ∧ (ρ (k + 1)).frame = (ρ 0).frame ∧
      (∃ n n', (ρ 0).frames (ρ 0).frame = some n ∧ (ρ (k + 1)).frames (ρ 0).frame = some n' ∧
        n'.localVars = n.localVars) ∧
      (∀ i < (ρ 0).rsp, (ρ (k + 1)).returnStack.get? i = (ρ 0).returnStack.get? i) ∧
      ∀ i ≤ k, (ρ i).nextOp = some .call →
        ((ρ (i + 1)).frames (ρ (i + 1)).frame).map (·.localVars) = some (.fill ObjectT.zero) := by
  have hk : k ≠ 0 := by
    rintro rfl
    rw [hcall] at hret; cases hret
  obtain ⟨j, rfl⟩ : ∃ j, k = j + 1 := ⟨k - 1, by omega⟩
  have hin := hrun.inside hcall hfirst j (by omega)
  obtain ⟨inst, heff⟩ := hrun.effect (Nat.lt_succ_self _) hret
  obtain ⟨hip, hframe, hlocals, hbelow⟩ := hin.leave heff hback
  obtain ⟨inst0, op0, hinst0, hop0, heff0⟩ := tvmExecOpcode_effect (hrun 0 (Nat.succ_pos _))
  refine ⟨?_, hframe, ?_, hbelow, fun i hi hop => ?_⟩
  · have hlt : (ρ 0).ip < tvmProgramCapacity := CArray.get?_lt hinst0
    rw [hip, wordSucc, Nat.mod_eq_of_lt]
    exact Nat.lt_of_lt_of_le (Nat.succ_lt_succ hlt) (by decide)
  · rw [hcall] at hop0
    cases hop0
    obtain ⟨frame, frames, -, -, enter, -⟩ := heff0.of_call
    obtain ⟨n, hn, -⟩ := tvmFrameNext_ok enter
    rw [hn, Option.map_some] at hlocals
    obtain ⟨n', hn', heq⟩ := Option.map_eq_some_iff.1 hlocals
    exact ⟨n, n', hn, hn', heq⟩
  · obtain ⟨inst, heff⟩ := hrun.effect (Nat.lt_succ_of_le hi) hop
    exact heff.call_locals

/-- The call and the return of `call 1`, `ret`. -/
theorem call_returns_callRet : ∃ vm0 vm1 vm2 : Vm Unit, tvmInit (.bare [64, 128]) callRet () = .ok vm0 ∧
    tvmExecOpcode (.bare [64, 128]) vm0 = .ok (.ok, vm1) ∧ tvmExecOpcode (.bare [64, 128]) vm1 = .ok (.ok, vm2) ∧
      vm2.ip = vm0.ip + 1 ∧ vm2.frame = vm0.frame := by
  have hsteps : ∃ vm0 vm1 vm2 : Vm Unit, tvmInit (.bare [64, 128]) callRet () = .ok vm0 ∧
      tvmExecOpcode (.bare [64, 128]) vm0 = .ok (.ok, vm1) ∧ tvmExecOpcode (.bare [64, 128]) vm1 = .ok (.ok, vm2) ∧
        vm0.nextOp = some .call ∧ vm1.nextOp = some .ret ∧ vm2.rsp = vm0.rsp :=
    ⟨_, _, _, rfl, rfl, rfl, rfl, rfl, rfl⟩
  obtain ⟨vm0, vm1, vm2, h0, h1, h2, hcall, hret, hback⟩ := hsteps
  have hrun : Run (.bare [64, 128]) (fun i => [vm0, vm1].getD i vm2) 2
    | 0, _ => h1
    | 1, _ => h2
  have h := call_returns (.bare [64, 128]) (fun i => [vm0, vm1].getD i vm2) 1 hrun hcall hret hback
    fun i hpos hi => absurd hpos (by omega)
  exact ⟨vm0, vm1, vm2, h0, h1, h2, h.1, h.2.1⟩

end TileVm
