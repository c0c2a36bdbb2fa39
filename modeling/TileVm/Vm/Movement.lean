/-
Data movement. Every instruction that moves objects moves them whole, tag and payload, except for
`OP_DUP`, which writes the `i32` member of the slot above the stack and leaves the rest of what the
slot held. It duplicates the object exactly when the slot holds the same tag and upper half already.
-/
import TileVm.Vm.Origin
import TileVm.Vm.Shift
import TileVm.Vm.Arith

namespace TileVm

open Except (Post)

variable {W : Type} {env : Env W} {op : OpType} {inst : Opcode} {vm vm' : Vm W} {o : ObjectT}

/-! ## Duplication -/

/-- An object is its tag and upper half, and its `ui32`. -/
theorem write_ui32_self (a : ObjectT) : Member.ui32.write a.ui64 a = a := by
  have hsplit : a.ui64.extractLsb' 32 32 ++ a.ui64.setWidth 32 = a.ui64 := by
    rw [BitVec.setWidth_eq_extractLsb' (by omega), BitVec.extractLsb'_append_extractLsb'_eq_extractLsb' (by rfl)]
    exact BitVec.extractLsb'_eq_self
  unfold Member.write ObjectT.setUi32
  dsimp only
  rw [hsplit]

/-- A copy of the `i32` member makes a copy of the object when the rest is there already. -/
theorem copyUi32_eq_iff (old a : ObjectT) : old.setUi32 a.ui32 = a ↔ Member.ui32.rest old = Member.ui32.rest a := by
  have hwrite := Member.write_eq_iff .ui32 a.ui64 old a
  rw [write_ui32_self] at hwrite
  exact hwrite

/-- The slot above the stack holds the tag and the upper half of the object on top. -/
def DupFits (vm : Vm W) : Prop :=
  ∀ a old, vm.stack.get? (vm.sp - 1) = some a → vm.stack.get? vm.sp = some old → Member.ui32.rest old = Member.ui32.rest a

/-- `vm` with `o` pushed. -/
def Vm.pushed (vm : Vm W) (o : ObjectT) : Vm W :=
  ({ vm with stack := vm.stack.put vm.sp o }.setSp (vm.sp + 1)).next

theorem Vm.pushed_inj {a b : ObjectT} (hsp : vm.sp < tvmStackCapacity) (h : vm.pushed a = vm.pushed b) : a = b := by
  have hstack : (vm.stack.put vm.sp a).get? vm.sp = (vm.stack.put vm.sp b).get? vm.sp :=
    congrArg (fun w : Vm W => w.stack.get? vm.sp) h
  rw [CArray.get?_put_self _ _ hsp, CArray.get?_put_self _ _ hsp] at hstack
  exact Option.some.inj hstack

/-- `OP_DUP` leaves the state as it is and raises, or pushes over what the slot held. -/
theorem dup_cases {e : TvmException} (h : tvmExecOp env .dup inst vm = .ok (e, vm')) :
    (e ≠ .ok ∧ vm' = vm) ∨ e = .ok ∧ 0 < vm.sp ∧ vm.sp < tvmStackCapacity ∧
      ∃ a old, vm.stack.get? (vm.sp - 1) = some a ∧ vm.stack.get? vm.sp = some old ∧ vm' = vm.pushed (old.setUi32 a.ui32) := by
  change (if vm.sp < 1 then raise .stackUnderflow vm else if tvmStackCapacity ≤ vm.sp then raise .stackOverflow vm
    else vm.stackAt (vm.sp - 1) >>= fun a => pushWith (fun old => .ok (old.setUi32 a.ui32)) vm) = _ at h
  split at h
  · cases h
    exact .inl ⟨nofun, rfl⟩
  split at h
  · cases h
    exact .inl ⟨nofun, rfl⟩
  rename_i hdepth hroom
  obtain ⟨a, ha, h⟩ := Except.bind_ok h
  have hold := CArray.get?_of_lt vm.stack (Nat.lt_of_not_le hroom)
  rw [pushWith_ok hold] at h
  cases h
  exact .inr ⟨rfl, Nat.pos_of_ne_zero fun hz => hdepth (by omega), Nat.lt_of_not_le hroom, a, _, CArray.load_ok.1 ha, hold, rfl⟩

/-- `cln 0` pushes the object on top. -/
theorem cln_zero {a : ObjectT} {operand : Opcode} (hzero : operand.operand.ui32 = 0) (hdepth : 0 < vm.sp)
    (hroom : vm.sp < tvmStackCapacity) (ha : vm.stack.get? (vm.sp - 1) = some a) :
    tvmExecOp env .cln operand vm = done (vm.pushed a) := by
  change (if vm.sp ≤ operand.operand.ui32.toNat then raise .invalidStackAccess vm
    else if vm.sp < 1 then raise .stackUnderflow vm else if tvmStackCapacity ≤ vm.sp then raise .stackOverflow vm
    else vm.stackAt (vm.sp - operand.operand.ui32.toNat - 1) >>= fun a => pushWith (fun _ => .ok a) vm) = _
  have hread : vm.stackAt (vm.sp - 0 - 1) = .ok a := CArray.load_ok.2 ha
  rw [hzero, show (0 : BitVec 32).toNat = 0 from rfl, if_neg (show ¬ vm.sp ≤ 0 by omega),
    if_neg (show ¬ vm.sp < 1 by omega), if_neg (Nat.not_le_of_lt hroom), Except.bind_of_ok hread]
  exact pushWith_ok (g := fun _ => a) (CArray.get?_of_lt vm.stack hroom)

/-- `OP_DUP` does what `cln 0` does exactly when the slot above the stack fits. -/
theorem dup_eq_cln_iff {zero : Opcode} (hzero : zero.operand.ui32 = 0)
    (h : tvmExecOp env .dup inst vm = .ok (.ok, vm')) :
    tvmExecOp env .cln zero vm = .ok (.ok, vm') ↔ DupFits vm := by
  obtain ⟨hne, -⟩ | ⟨-, hdepth, hroom, a, old, ha, hold, rfl⟩ := dup_cases h
  · exact absurd rfl hne
  rw [cln_zero hzero hdepth hroom ha]
  have hfits : DupFits vm ↔ Member.ui32.rest old = Member.ui32.rest a := by
    unfold DupFits
    rw [ha, hold]
    simp
  rw [hfits, ← copyUi32_eq_iff]
  constructor
  · intro hdone
    have hstate : vm.pushed a = vm.pushed (old.setUi32 a.ui32) := congrArg Prod.snd (Except.ok.inj hdone)
    exact (Vm.pushed_inj hroom hstate).symm
  · intro hcopy
    rw [hcopy]
    rfl

/-! ## One step -/

/-- The instructions that move objects and compute none. -/
def OpType.moves : OpType → Bool
  | .push | .pop | .dup | .cln | .swap | .load | .store | .gload | .gstore => true
  | .nop | .jmp | .jz | .jnz | .call | .ret => true
  | _ => false

/-- Where an object in use after a movement comes from. -/
def Moved (op : OpType) (inst : Opcode) (vm : Vm W) (o : ObjectT) : Prop :=
  vm.InUse o ∨ o = .zero ∨ op = .push ∧ o = inst.operand

/-- Only `OP_DUP` leaves part of a slot. -/
theorem moves_whole (hop : op.moves = true) (hdup : op ≠ .dup) : inPlaceSlot op inst vm = none := by
  cases op <;> first | rfl | exact absurd rfl hdup | cases hop

theorem moved_of_origin (h : Origin env op inst vm o) (hop : op.moves = true) (hdup : op ≠ .dup) : Moved op inst vm o := by
  cases h with
  | kept was => exact .inl was
  | fresh eq => exact .inr (.inl eq)
  | operand is eq => exact .inr (.inr ⟨is, eq⟩)
  | written place => rw [moves_whole hop hdup] at place; cases place
  | block is => subst is; cases hop

/-- The objects in use after a movement have been in use before it, or are zero, or are pushed. -/
theorem moves_step {e : TvmException} (hop : op.moves = true) (hfits : op = .dup → DupFits vm)
    (h : tvmExecOp env op inst vm = .ok (e, vm')) (ho : vm'.InUse o) : Moved op inst vm o := by
  by_cases hdup : op = .dup
  · subst hdup
    -- a fitting duplication is `cln 0`, which copies the whole object
    by_cases he : e = .ok
    · subst he
      have hzero : Opcode.zero.operand.ui32 = 0 := rfl
      have hcln := (dup_eq_cln_iff hzero h).2 (hfits rfl)
      have hdraws : DrawsPost env .cln .zero vm _ := tvmExecOp_draws
      rw [hcln] at hdraws
      obtain hkept | hzero | ⟨⟨⟩, -⟩ := moved_of_origin (hdraws o ho) rfl nofun
      · exact .inl hkept
      · exact .inr (.inl hzero)
    · obtain ⟨-, rfl⟩ | ⟨hok, -⟩ := dup_cases h
      · exact .inl ho
      · exact absurd hok he
  · have hdraws : DrawsPost env op inst vm _ := tvmExecOp_draws
    rw [h] at hdraws
    exact moved_of_origin (hdraws o ho) hop hdup

/-! ## Runs -/

/-- `n` steps of movement, each with or without an exception. -/
def Movement (env : Env W) (ρ : Nat → Vm W) (n : Nat) : Prop :=
  ∀ i < n, (∃ op, (ρ i).nextOp = some op ∧ op.moves = true) ∧ ∃ e, tvmExecOpcode env (ρ i) = .ok (e, ρ (i + 1))

/-- The objects of a run up to its state `i`: those in use at its start, the zero object of a fresh frame, and the
operands that it has pushed. -/
inductive Supplied (ρ : Nat → Vm W) (i : Nat) (o : ObjectT) : Prop
  | start (was : (ρ 0).InUse o)
  | fresh (eq : o = .zero)
  | pushed {j : Nat} {inst : Opcode} (before : j < i) (is : (ρ j).nextOp = some .push)
      (fetched : (ρ j).program.code.get? (ρ j).ip = some inst) (eq : o = inst.operand)

theorem Supplied.later {ρ : Nat → Vm W} {i j : Nat} (h : Supplied ρ i o) (hij : i ≤ j) : Supplied ρ j o := by
  cases h with
  | start was => exact .start was
  | fresh eq => exact .fresh eq
  | pushed before is fetched eq => exact .pushed (Nat.lt_of_lt_of_le before hij) is fetched eq

/-- Movement makes no object, as long as each duplication fits. -/
theorem Movement.supplied {ρ : Nat → Vm W} {n : Nat} (h : Movement env ρ n)
    (hfits : ∀ i < n, (ρ i).nextOp = some .dup → DupFits (ρ i)) : ∀ i ≤ n, ∀ o, (ρ i).InUse o → Supplied ρ i o := by
  intro i
  induction i with
  | zero => exact fun _ o ho => .start ho
  | succ i ih =>
    intro hi o ho
    obtain ⟨⟨op, hop, hmoves⟩, e, hstep⟩ := h i hi
    obtain ⟨inst, hinst, hexec⟩ := Except.bind_ok hstep
    have hinst := CArray.load_ok.1 hinst
    have hcode : OpType.ofNat? inst.type.toNat = some op := by
      unfold Vm.nextOp at hop
      rw [hinst] at hop
      exact hop
    unfold tvmExecInst at hexec
    rw [hcode] at hexec
    obtain hkept | hzero | ⟨rfl, heq⟩ := moves_step hmoves (fun hdup => hfits i hi (hdup ▸ hop)) hexec ho
    · exact (ih (Nat.le_of_lt hi) o hkept).later (Nat.le_succ i)
    · exact .fresh hzero
    · exact .pushed (Nat.lt_succ_self i) hop hinst heq

/-- In a run of movement in which each duplication fits, every object in use was in use at the start, or has been
pushed, or is zero; and a duplication leads to the state of `cln 0` if and only if it fits. -/
theorem movement_whole (env : Env W) :
    (∀ (ρ : Nat → Vm W) (n : Nat), Movement env ρ n → (∀ i < n, (ρ i).nextOp = some .dup → DupFits (ρ i)) →
      ∀ i ≤ n, ∀ o, (ρ i).InUse o → Supplied ρ i o) ∧
    ∀ (vm vm' : Vm W) (operand zero : ObjectT), zero.ui32 = 0 →
      tvmExecInst env ⟨OpType.dup.code, operand⟩ vm = .ok (.ok, vm') →
        (tvmExecInst env ⟨OpType.cln.code, zero⟩ vm = .ok (.ok, vm') ↔ DupFits vm) := by
  constructor
  · exact fun ρ n h hfits => h.supplied hfits
  · intro vm vm' operand zero hzero h
    rw [tvmExecInst_code] at h ⊢
    exact dup_eq_cln_iff hzero h

/-! ## A number under a popped character -/

/-- The machine starts with zero objects. -/
theorem tvmInit_inUse {program : TvmProgram} {world : W} (h : tvmInit env program world = .ok vm) (ho : vm.InUse o) :
    o = .zero := by
  obtain ⟨⟨frame, frames⟩, hframe, h⟩ := Except.bind_ok h
  cases h
  unfold tvmFrameInit at hframe
  split at hframe
  · cases hframe
    obtain ⟨i, hi, -⟩ | ⟨a, f, i, hf, hget⟩ | ⟨i, hget⟩ := ho
    · cases hi
    · change FrameStore.empty.set frame _ a = some f at hf
      by_cases ha : a = frame
      · rw [ha, FrameStore.set_self] at hf
        cases hf
        rw [CArray.get?_fill _ (CArray.get?_lt hget)] at hget
        exact (Option.some.inj hget).symm
      · rw [FrameStore.set_of_ne _ _ ha] at hf
        cases hf
    · rw [CArray.get?_fill _ (CArray.get?_lt hget)] at hget
      exact (Option.some.inj hget).symm
  · cases hframe

/-- The instructions `push 1`, `push 'a'`, `pop`, `dup`. -/
def numberUnderCharacter : TvmProgram :=
  let push (o : ObjectT) : Opcode := ⟨OpType.push.code, o⟩
  { TvmProgram.zero with
    code := TvmProgram.zero.code.putAll 0 [push ⟨StackObjType.number.code, 1⟩, push ⟨StackObjType.character.code, 97⟩,
      ⟨OpType.pop.code, .zero⟩, ⟨OpType.dup.code, .zero⟩]
    size := 4 }

/-- Its duplication makes a character of the number. -/
theorem dup_mixes_objects : ∃ ρ : Nat → Vm Unit, tvmInit (.bare [64]) numberUnderCharacter () = .ok (ρ 0) ∧
    Movement (.bare [64]) ρ 4 ∧ (ρ 4).InUse ⟨StackObjType.character.code, 1⟩ ∧
      ¬ Supplied ρ 4 ⟨StackObjType.character.code, 1⟩ := by
  obtain ⟨vm0, vm1, vm2, vm3, vm4, h0, ⟨hs0, hop0, hf0⟩, ⟨hs1, hop1, hf1⟩, ⟨hs2, hop2⟩, ⟨hs3, hop3⟩, hsp, htop⟩ :
      ∃ vm0 vm1 vm2 vm3 vm4 : Vm Unit, tvmInit (.bare [64]) numberUnderCharacter () = .ok vm0 ∧
      (tvmExecOpcode (.bare [64]) vm0 = .ok (.ok, vm1) ∧ vm0.nextOp = some .push ∧
        vm0.program.code.get? vm0.ip = some ⟨OpType.push.code, StackObjType.number.code, 1⟩) ∧
      (tvmExecOpcode (.bare [64]) vm1 = .ok (.ok, vm2) ∧ vm1.nextOp = some .push ∧
        vm1.program.code.get? vm1.ip = some ⟨OpType.push.code, StackObjType.character.code, 97⟩) ∧
      (tvmExecOpcode (.bare [64]) vm2 = .ok (.ok, vm3) ∧ vm2.nextOp = some .pop) ∧
      (tvmExecOpcode (.bare [64]) vm3 = .ok (.ok, vm4) ∧ vm3.nextOp = some .dup) ∧
      vm4.sp = 2 ∧ vm4.stack.get? 1 = some ⟨StackObjType.character.code, 1⟩ :=
    ⟨_, _, _, _, _, rfl, ⟨rfl, rfl, rfl⟩, ⟨rfl, rfl, rfl⟩, ⟨rfl, rfl⟩, ⟨rfl, rfl⟩, rfl, rfl⟩
  refine ⟨fun i => [vm0, vm1, vm2, vm3].getD i vm4, h0, ?_, .inl ⟨1, hsp ▸ Nat.lt_succ_self 1, htop⟩, ?_⟩
  · rintro (_ | _ | _ | _ | i) hi
    · exact ⟨⟨.push, hop0, rfl⟩, .ok, hs0⟩
    · exact ⟨⟨.push, hop1, rfl⟩, .ok, hs1⟩
    · exact ⟨⟨.pop, hop2, rfl⟩, .ok, hs2⟩
    · exact ⟨⟨.dup, hop3, rfl⟩, .ok, hs3⟩
    · omega
  · -- the machine does not start with that object, and no instruction before supplies it
    rintro (hstart | hzero | ⟨hj, hpush, hfetched, heq⟩)
    · cases tvmInit_inUse h0 hstart
    · cases hzero
    · rename_i j inst
      obtain _ | _ | _ | _ | j := j
      · cases hf0.symm.trans hfetched
        cases heq
      · cases hf1.symm.trans hfetched
        cases heq
      · cases hop2.symm.trans hpush
      · cases hop3.symm.trans hpush
      · omega

/-- The instructions `push 1`, `push 7`, `pop`, `dup`. -/
def numberUnderNumber : TvmProgram :=
  let push (n : BitVec 64) : Opcode := ⟨OpType.push.code, ⟨StackObjType.number.code, n⟩⟩
  { TvmProgram.zero with
    code := TvmProgram.zero.code.putAll 0 [push 1, push 7, ⟨OpType.pop.code, .zero⟩, ⟨OpType.dup.code, .zero⟩]
    size := 4 }

/-- Its duplication is over a slot with the same tag and upper half. It makes no object, and does what `cln 0` does. -/
theorem movement_whole_number : ∃ ρ : Nat → Vm Unit, tvmInit (.bare [64]) numberUnderNumber () = .ok (ρ 0) ∧
    Movement (.bare [64]) ρ 4 ∧ (ρ 3).nextOp = some .dup ∧ (ρ 4).InUse ⟨StackObjType.number.code, 1⟩ ∧
    (∀ i ≤ 4, ∀ o, (ρ i).InUse o → Supplied ρ i o) ∧
    tvmExecInst (.bare [64]) ⟨OpType.cln.code, .zero⟩ (ρ 3) = .ok (.ok, ρ 4) := by
  obtain ⟨vm0, vm1, vm2, vm3, vm4, h0, ⟨hs0, hop0⟩, ⟨hs1, hop1⟩, ⟨hs2, hop2⟩, ⟨hs3, hop3, hdup⟩, hsp, hsp4, hbelow, habove, htop⟩ :
      ∃ vm0 vm1 vm2 vm3 vm4 : Vm Unit, tvmInit (.bare [64]) numberUnderNumber () = .ok vm0 ∧
      (tvmExecOpcode (.bare [64]) vm0 = .ok (.ok, vm1) ∧ vm0.nextOp = some .push) ∧
      (tvmExecOpcode (.bare [64]) vm1 = .ok (.ok, vm2) ∧ vm1.nextOp = some .push) ∧
      (tvmExecOpcode (.bare [64]) vm2 = .ok (.ok, vm3) ∧ vm2.nextOp = some .pop) ∧
      (tvmExecOpcode (.bare [64]) vm3 = .ok (.ok, vm4) ∧ vm3.nextOp = some .dup ∧
        tvmExecInst (.bare [64]) ⟨OpType.dup.code, .zero⟩ vm3 = .ok (.ok, vm4)) ∧
      vm3.sp = 1 ∧ vm4.sp = 2 ∧ vm3.stack.get? 0 = some ⟨StackObjType.number.code, 1⟩ ∧
      vm3.stack.get? 1 = some ⟨StackObjType.number.code, 7⟩ ∧ vm4.stack.get? 1 = some ⟨StackObjType.number.code, 1⟩ :=
    ⟨_, _, _, _, _, rfl, ⟨rfl, rfl⟩, ⟨rfl, rfl⟩, ⟨rfl, rfl⟩, ⟨rfl, rfl, rfl⟩, rfl, rfl, rfl, rfl, rfl⟩
  have hfits : DupFits vm3 := by
    intro a old ha hold
    rw [hsp] at ha hold
    cases hbelow.symm.trans ha
    cases habove.symm.trans hold
    rfl
  obtain ⟨hsupplied, hcln⟩ := movement_whole (Env.bare [64])
  have hmovement : Movement (.bare [64]) (fun i => [vm0, vm1, vm2, vm3].getD i vm4) 4 := by
    rintro (_ | _ | _ | _ | i) hi
    · exact ⟨⟨.push, hop0, rfl⟩, .ok, hs0⟩
    · exact ⟨⟨.push, hop1, rfl⟩, .ok, hs1⟩
    · exact ⟨⟨.pop, hop2, rfl⟩, .ok, hs2⟩
    · exact ⟨⟨.dup, hop3, rfl⟩, .ok, hs3⟩
    · omega
  refine ⟨fun i => [vm0, vm1, vm2, vm3].getD i vm4, h0, hmovement, hop3, .inl ⟨1, hsp4 ▸ Nat.lt_succ_self 1, htop⟩,
    hsupplied _ 4 hmovement ?_, (hcln vm3 vm4 .zero .zero rfl hdup).2 hfits⟩
  -- the fourth step is the only duplication
  rintro (_ | _ | _ | _ | i) hi hop
  · cases hop0.symm.trans hop
  · cases hop1.symm.trans hop
  · cases hop2.symm.trans hop
  · exact hfits
  · omega

end TileVm
