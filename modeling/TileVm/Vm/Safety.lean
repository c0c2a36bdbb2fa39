/-
Safety of the machine, for every instruction stream: an exception leaves the state alone; both
stack pointers stay in bounds, the frame chain is as deep as the return stack, and no step leaves
an array of the machine or touches a freed frame.
-/
import Mathlib.Logic.Relation
import TileVm.Vm.Chain

namespace TileVm

open Relation (ReflTransGen)

variable {W : Type} {al : FrameAllocator} {op : OpType} {inst : Opcode} {vm vm' : Vm W} {base : Addr}

/-! ## Exceptions -/

/-- Every guard comes before the updates of its branch: a step that raises an exception has
changed nothing. -/
theorem tvmExecInst_exception (env : Env W) (inst : Opcode) (vm vm' : Vm W) (e : TvmException)
    (h : tvmExecInst env inst vm = .ok (e, vm')) (he : e ≠ .ok) : vm' = vm := by
  rcases (tvmExecInst_meets env inst vm).of_ok h with ⟨-, hsame⟩ | ⟨hok, -⟩
  · exact hsame
  · exact absurd hok he

/-- A `pop` of the empty stack. -/
theorem tvmExecInst_exception_pop : ∃ vm vm' : Vm Unit, ∃ e, e ≠ .ok ∧
    tvmInit (.bare [64]) .zero () = .ok vm ∧
    tvmExecInst (.bare [64]) ⟨OpType.pop.code, .zero⟩ vm = .ok (e, vm') ∧ vm' = vm := by
  refine ⟨_, _, .stackUnderflow, by decide, rfl, rfl, ?_⟩
  exact tvmExecInst_exception (.bare [64]) ⟨OpType.pop.code, .zero⟩ _ _ .stackUnderflow rfl (by decide)

/-! ## One step -/

namespace Effect

theorem program (h : Effect al op inst vm vm') : vm'.program = vm.program := by
  cases h with
  | next _ same => exact same.program
  | store _ same => exact same.program
  | jump _ _ same => exact same.program
  | call => rfl
  | ret => rfl
  | halt => rfl

theorem sp (h : Effect al op inst vm vm') (hsp : vm.sp ≤ tvmStackCapacity) : vm'.sp ≤ tvmStackCapacity := by
  cases h with
  | next _ same => exact same.sp hsp
  | store _ same => exact same.sp hsp
  | jump _ _ same => exact same.sp hsp
  | call => exact hsp
  | ret => exact hsp
  | halt => exact hsp

theorem rsp (h : Effect al op inst vm vm') (hrsp : vm.rsp ≤ returnStackCapacity) :
    vm'.rsp ≤ returnStackCapacity := by
  cases h with
  | next _ same => exact same.rsp ▸ hrsp
  | store _ same => exact same.rsp ▸ hrsp
  | jump _ _ same => exact same.rsp ▸ hrsp
  | call _ room => exact room
  | ret => exact show vm.rsp - 1 ≤ _ by omega
  | halt => exact hrsp

/-- A step that stays at depth `r` or deeper keeps the chain on `base`, one frame for each entry
of the return stack above `r`. -/
theorem chain {r : Nat} {path : List Addr} (h : Effect al op inst vm vm') (hr : r ≤ vm.rsp)
    (hc : Chain vm.frames base (vm.rsp - r) vm.frame path) (hstay : r ≤ vm'.rsp) :
    ∃ path', Chain vm'.frames base (vm'.rsp - r) vm'.frame path' := by
  cases h with
  | @next vm' _ same =>
    show ∃ path', Chain vm'.frames base (vm'.rsp - r) vm'.frame path'
    rw [same.frames, same.rsp, same.frame]
    exact ⟨path, hc⟩
  | @store vm' n o _ same current =>
    show ∃ path', Chain (vm'.frames.set vm'.frame _) base (vm'.rsp - r) vm'.frame path'
    rw [same.frames, same.rsp, same.frame]
    exact ⟨path, hc.setLocals current rfl⟩
  | @jump vm' _ _ same =>
    show ∃ path', Chain vm'.frames base (vm'.rsp - r) vm'.frame path'
    rw [same.frames, same.rsp, same.frame]
    exact ⟨path, hc⟩
  | @call frame frames _ _ _ enter =>
    have := hc.frameNext enter
    exact ⟨_, show Chain frames base (vm.rsp + 1 - r) frame _ by rwa [Nat.sub_add_comm hr]⟩
  | @ret ip frame frames _ deep _ leave =>
    have hd : vm.rsp - r = vm.rsp - 1 - r + 1 := by
      have : r ≤ vm.rsp - 1 := hstay
      omega
    rw [hd] at hc
    obtain ⟨rest, -, -, hrest⟩ := hc.framePrev leave
    exact ⟨rest, hrest⟩
  | halt => exact ⟨path, hc⟩

end Effect

/-! ## Whole runs -/

/-- The invariant: the stack pointers are in bounds, and behind the current frame lies one frame
for each entry of the return stack, down to `base`. -/
structure Sound (base : Addr) (p : TvmProgram) (vm : Vm W) : Prop where
  program : vm.program = p
  sp : vm.sp ≤ tvmStackCapacity
  rsp : vm.rsp ≤ returnStackCapacity
  chain : ∃ path, Chain vm.frames base vm.rsp vm.frame path

namespace Sound

variable {p : TvmProgram}

theorem ready (h : Sound base p vm) (hargs : SmallArgs p) : Ready vm := by
  obtain ⟨path, hc⟩ := h.chain
  exact ⟨h.sp, h.rsp, hc.live_of_mem _ hc.head_mem, hc.linked, h.program ▸ hargs⟩

theorem effect (h : Sound base p vm) (he : Effect al op inst vm vm') : Sound base p vm' := by
  obtain ⟨path, hc⟩ := h.chain
  exact ⟨he.program.trans h.program, he.sp h.sp, he.rsp h.rsp, he.chain (Nat.zero_le _) hc (Nat.zero_le _)⟩

theorem init {env : Env W} {world : W} (h : tvmInit env p world = .ok vm) : Sound vm.frame p vm := by
  unfold tvmInit at h
  obtain ⟨⟨frame, frames⟩, hf, h⟩ := Except.bind_ok h
  unfold tvmFrameInit at hf
  split at hf
  · cases hf
    cases h
    exact ⟨rfl, Nat.zero_le _, Nat.zero_le _, _, .base (FrameStore.set_self ..)⟩
  · cases hf

end Sound

/-- One `tvm_exec_opcode`, on any fetched opcode, that returns. -/
def Steps (env : Env W) (vm vm' : Vm W) : Prop := ∃ inst e, tvmExecInst env inst vm = .ok (e, vm')

theorem Sound.steps {env : Env W} {p : TvmProgram} (h : Sound base p vm) (hs : Steps env vm vm') :
    Sound base p vm' := by
  obtain ⟨inst, e, hs⟩ := hs
  by_cases he : e = .ok
  · subst he
    obtain ⟨op, -, heff⟩ := tvmExecInst_effect hs
    exact h.effect heff
  · rw [tvmExecInst_exception env inst vm vm' e hs he]; exact h

/-- In every state reachable from `tvm_init`, whatever opcodes are fetched: the stack pointers are
in bounds, `prev` leads from the current frame to the initial one in exactly `rsp` steps through
distinct live frames, and no step goes outside an array of the machine, frees a frame twice or uses
one that is freed. -/
theorem tvm_reachable_safe (env : Env W) (program : TvmProgram) (world : W) (hargs : SmallArgs program)
    (vm0 vm : Vm W) (hinit : tvmInit env program world = .ok vm0) (hrun : ReflTransGen (Steps env) vm0 vm) :
    vm.sp ≤ tvmStackCapacity ∧ vm.rsp ≤ returnStackCapacity ∧
      (∃ path, prevPath vm.frames vm.rsp vm.frame = some path ∧ path.Nodup ∧ path.getLast? = some vm0.frame) ∧
      ∀ inst f, tvmExecInst env inst vm = .error f → f.internal = false := by
  have hsound : Sound vm0.frame program vm := by
    induction hrun with
    | refl => exact .init hinit
    | tail _ hstep ih => exact ih.steps hstep
  obtain ⟨path, hc⟩ := hsound.chain
  refine ⟨hsound.sp, hsound.rsp, ⟨path, hc.prevPath_eq, hc.nodup, hc.getLast?⟩, fun inst f hf => ?_⟩
  exact (tvmExecInst_meets env inst vm).of_error hf (hsound.ready hargs)

/-- `call 1` and `ret`. -/
def callRet : TvmProgram :=
  { TvmProgram.zero with
    code := (TvmProgram.zero.code.put 0 ⟨OpType.call.code, ⟨StackObjType.number.code, 1⟩⟩).put 1
      ⟨OpType.ret.code, .zero⟩
    size := 2 }

/-- After `call 1` of that program. -/
theorem tvm_reachable_safe_call : ∃ vm0 vm : Vm Unit,
    tvmInit (.bare [64, 128]) callRet () = .ok vm0 ∧ Steps (.bare [64, 128]) vm0 vm ∧ vm.rsp = 1 ∧
      vm.sp ≤ tvmStackCapacity ∧ vm.rsp ≤ returnStackCapacity ∧
      (∃ path, prevPath vm.frames vm.rsp vm.frame = some path ∧ path.Nodup ∧ path.getLast? = some vm0.frame) ∧
      ∀ inst f, tvmExecInst (.bare [64, 128]) inst vm = .error f → f.internal = false := by
  have hargs : SmallArgs callRet := by
    intro i m id f hm hid _
    have hi := CArray.get?_lt hm
    have := CArray.get?_fill TvmProgramMetadataModule.zero hi
    rw [show callRet.metadata.modules.get? i = some TvmProgramMetadataModule.zero from this] at hm
    cases hm
    exact absurd hid (Nat.not_lt_zero _)
  have hcall : ∃ vm0 vm, tvmInit (.bare [64, 128]) callRet () = .ok vm0 ∧
      tvmExecInst (.bare [64, 128]) ⟨OpType.call.code, ⟨StackObjType.number.code, 1⟩⟩ vm0 = .ok (.ok, vm) ∧
      vm.rsp = 1 := ⟨_, _, rfl, rfl, rfl⟩
  obtain ⟨vm0, vm, h0, hstep, hrsp⟩ := hcall
  refine ⟨vm0, vm, h0, ⟨_, _, hstep⟩, hrsp, ?_⟩
  exact tvm_reachable_safe (.bare [64, 128]) callRet () hargs vm0 vm h0 (.single ⟨_, _, hstep⟩)

end TileVm
