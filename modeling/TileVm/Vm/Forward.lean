/-
Programs that jump and call forward only end, whatever they compute and whatever they call: within 3
to the number of their instructions plus one turns of `tvm_run`.
-/
import Mathlib.Tactic.IntervalCases
import TileVm.Lib.Forward
import TileVm.Vm.Activations

namespace TileVm

variable {W : Type} {env : Env W} {p : TvmProgram}

/-- Every jump and every call that is executed names an instruction behind itself. The cell behind the code is executed,
too. -/
def TvmProgram.GoesForward (p : TvmProgram) : Prop :=
  ∀ ip ≤ p.size, ∀ c, p.code.get? ip = some c → c.takesTarget = true → c.operand.ui32.toNat < p.size →
    ip < c.operand.ui32.toNat

theorem toCode_fetch_ok {ip : Nat} {i : Opcode} (h : p.toCode.fetch ip = .ok i) : ∃ c, p.code.get? ip = some c := by
  simp only [TvmProgram.toCode] at h
  split at h
  · rename_i c hfetch
    exact ⟨c, CArray.load_ok.1 hfetch⟩
  · cases h

theorem TvmProgram.GoesForward.forward (h : p.GoesForward) : p.toCode.Forward fun ip => p.size + 1 - ip := by
  constructor
  · intro ip i hin hfetch
    have hle : ip ≤ p.size := of_decide_eq_true hin
    obtain ⟨c, hc⟩ := toCode_fetch_ok hfetch
    have hlt := CArray.get?_lt hc
    have hcap : tvmProgramCapacity = 1024 := rfl
    show p.size + 1 - wordSucc ip < p.size + 1 - ip
    unfold wordSucc
    omega
  · intro ip k i hin hfetch htarget
    have hle : ip ≤ p.size := of_decide_eq_true hin
    obtain ⟨c, hc⟩ := toCode_fetch_ok hfetch
    simp only [TvmProgram.toCode, hc] at htarget
    split at htarget
    · rename_i hboth
      obtain ⟨htakes, hlt⟩ := Bool.and_eq_true_iff.mp hboth
      cases htarget
      have hbehind := h ip hle c hc htakes (of_decide_eq_true hlt)
      show p.size + 1 - c.operand.ui32.toNat < p.size + 1 - ip
      omega
    · cases htarget

/-- A program whose jumps and calls all go forward comes to its end, an exception or a fault, on every machine with room for
the frames. -/
theorem forward_ends (env : Env W) (hal : env.frames.Roomy) (p : TvmProgram) (h : p.GoesForward) (world : W) :
    ∃ vm, tvmInit env p world = .ok vm ∧ ∀ fuel, 3 ^ (p.size + 1) ≤ fuel → tvmRun env fuel vm ≠ .error .fuel := by
  obtain ⟨vm, hinit⟩ := tvmInit_roomy hal p world
  refine ⟨vm, hinit, fun fuel hfuel hrun => ?_⟩
  have hends : Activation.run (tvmMeaning env p.tables) p.toCode fuel
      (Activation.init (tvmMeaning env p.tables) p.toCode (.initial world)) ≠ .error .fuel := by
    apply h.forward.run_ends
    show 3 ^ (p.size + 1) + 0 ≤ fuel
    exact hfuel
  have hdata := tvmRun_data hal (tvmInit_represents hinit) fuel
  rw [hrun] at hdata
  exact hends (Except.map_eq_error hdata.symm)

theorem callRet_goesForward : callRet.GoesForward := by
  intro ip hip c hc htakes hlt
  have hip : ip ≤ 2 := hip
  interval_cases ip
  · cases hc
    decide
  · cases hc
    cases htakes
  · cases hc
    cases htakes

/-- `call 1` and `ret`, whose return goes back to the call's successor, end. -/
theorem forward_ends_callRet : ∃ vm, tvmInit (.bare framePool) callRet () = .ok vm ∧
    ∀ fuel, 3 ^ (callRet.size + 1) ≤ fuel → tvmRun (.bare framePool) fuel vm ≠ .error .fuel :=
  forward_ends (.bare framePool) framePool_roomy callRet callRet_goesForward ()

end TileVm
