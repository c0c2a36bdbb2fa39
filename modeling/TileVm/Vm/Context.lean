/-
Code does not see what lies beneath its operands: a run of successful steps is a run of successful
steps over any objects pushed before it, as long as the stack has room.
-/
import TileVm.Vm.Shift

namespace TileVm

variable {W : Type} {vm vm' : Vm W} {base : List ObjectT}

/-! ## Objects beneath the stack -/

/-- The stack moved up by `base.length` slots, with `base` beneath it. -/
def insertBelow (base : List ObjectT) (stack : CArray ObjectT tvmStackCapacity) : CArray ObjectT tvmStackCapacity :=
  ⟨fun i => if h : i.1 < base.length then base[i.1] else stack.cell ⟨i.1 - base.length, Nat.lt_of_le_of_lt (Nat.sub_le ..) i.2⟩⟩

/-- The same state with `base` beneath the stack. -/
def Vm.insertBase (base : List ObjectT) (vm : Vm W) : Vm W :=
  { vm with stack := insertBelow base vm.stack, sp := base.length + vm.sp }

theorem get?_insertBelow_of_lt {stack : CArray ObjectT tvmStackCapacity} {i : Nat} (hi : i < base.length)
    (hlt : i < tvmStackCapacity) : (insertBelow base stack).get? i = base[i]? := by
  rw [CArray.get?_of_lt _ hlt, List.getElem?_eq_getElem hi]
  simp [insertBelow, hi]

theorem get?_insertBelow_add {stack : CArray ObjectT tvmStackCapacity} {i : Nat}
    (hlt : base.length + i < tvmStackCapacity) :
    (insertBelow base stack).get? (base.length + i) = stack.get? i := by
  rw [CArray.get?_of_lt _ hlt, CArray.get?_of_lt _ (by omega)]
  have hge : ¬ base.length + i < base.length := by omega
  simp [insertBelow, hge]

theorem insertBase_alike (vm : Vm W) (hbase : base.length ≤ tvmStackCapacity) :
    Alike base true vm (vm.insertBase base) := by
  refine ⟨insertBelow base vm.stack, rfl, ?_, ?_⟩
  · exact fun i hi => get?_insertBelow_of_lt hi (by omega)
  · exact fun i _ hlt => get?_insertBelow_add hlt

/-- The shifted state, popped slots included, is determined. -/
theorem Alike.eq_insertBase (h : Alike base true vm vm') : vm' = vm.insertBase base := by
  obtain ⟨stack', rfl, h⟩ := h
  have hstack : stack' = insertBelow base vm.stack := by
    apply CArray.ext_get?
    intro i
    by_cases hlt : i < tvmStackCapacity
    · by_cases hi : i < base.length
      · rw [h.below i hi, get?_insertBelow_of_lt hi hlt]
      · obtain ⟨j, rfl⟩ : ∃ j, i = base.length + j := ⟨i - base.length, by omega⟩
        rw [h.slots j (.inl rfl) hlt, get?_insertBelow_add hlt]
    · rw [CArray.get?_of_le _ (by omega), CArray.get?_of_le _ (by omega)]
  rw [hstack]
  rfl

/-! ## Steps and runs -/

/-- A successful step succeeds over any objects that leave room for one more. -/
theorem step_insertBase {env : Env W} (h : tvmExecOpcode env vm = .ok (.ok, vm'))
    (hroom : base.length + vm.sp < tvmStackCapacity) :
    tvmExecOpcode env (vm.insertBase base) = .ok (.ok, vm'.insertBase base) := by
  obtain ⟨inst, hinst, h⟩ := Except.bind_ok h
  obtain ⟨stack', heq, hshift⟩ := insertBase_alike vm (show base.length ≤ tvmStackCapacity by omega)
  have hkeep : Agree env inst base.length vm stack' := by
    intro m _ old old' hold hold'
    rw [hshift.slots _ (.inl rfl) hroom, hold] at hold'
    cases hold'
    rfl
  obtain ⟨⟨e, w⟩, hstep, he, hw⟩ := (tvmExecInst_matches hshift (.inr hroom) hkeep).result _ h (.inr rfl)
  dsimp only at he hw
  rw [heq, ← hw.eq_insertBase, ← he]
  have hfetch : (vm.over base.length stack').program.code.get? (vm.over base.length stack').ip = some inst :=
    CArray.load_ok.1 hinst
  rw [tvmExecOpcode_eq hfetch]
  exact hstep

/-- Context independence: what `n` successful steps do, they do over any objects beneath the stack,
in states that differ by these objects only. -/
theorem run_insertBase (env : Env W) (ρ : Nat → Vm W) (n : Nat) (base : List ObjectT) (hrun : Run env ρ n)
    (hroom : ∀ i < n, base.length + (ρ i).sp ≤ 1023) : Run env (fun i => (ρ i).insertBase base) n := by
  intro i hi
  exact step_insertBase (hrun i hi) (Nat.lt_succ_of_le (hroom i hi))

/-- The instruction `push 5`. -/
def onlyPush : TvmProgram :=
  { TvmProgram.zero with
    code := TvmProgram.zero.code.put 0 ⟨OpType.push.code, ⟨StackObjType.number.code, 5⟩⟩, size := 1 }

/-- `push 5` over one object. -/
theorem run_insertBase_push : ∃ vm0 vm1 : Vm Unit, tvmInit (.bare [64]) onlyPush () = .ok vm0 ∧
    tvmExecOpcode (.bare [64]) vm0 = .ok (.ok, vm1) ∧
      tvmExecOpcode (.bare [64]) (vm0.insertBase [⟨3, 7⟩]) = .ok (.ok, vm1.insertBase [⟨3, 7⟩]) := by
  have hstep : ∃ vm0 vm1 : Vm Unit, tvmInit (.bare [64]) onlyPush () = .ok vm0 ∧
      tvmExecOpcode (.bare [64]) vm0 = .ok (.ok, vm1) ∧ vm0.sp = 0 := ⟨_, _, rfl, rfl, rfl⟩
  obtain ⟨vm0, vm1, h0, h1, hsp⟩ := hstep
  have hrun : Run (.bare [64]) (fun i => [vm0].getD i vm1) 1
    | 0, _ => h1
  refine ⟨vm0, vm1, h0, h1, ?_⟩
  refine run_insertBase (.bare [64]) (fun i => [vm0].getD i vm1) 1 [⟨3, 7⟩] hrun (fun i hi => ?_) 0 Nat.one_pos
  obtain rfl : i = 0 := by omega
  show 1 + vm0.sp ≤ 1023
  omega

end TileVm
