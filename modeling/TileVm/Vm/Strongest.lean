/-
Proof outlines are complete for the machine: whatever is true of all runs of a program, an outline
shows, and if the run comes to its end, a variant shows that, too.
-/
import TileVm.Lib.Strongest
import TileVm.Vm.Outline

namespace TileVm

open Except (Post)

variable {W : Type} {env : Env W} {p : TvmProgram} {world : W} {vm : Vm W}

section Runs

/-- A stop of the machine with activations is one of `tvm_run`. -/
theorem tvmRun_stops (hal : env.frames.Roomy) (hinit : tvmInit env p world = .ok vm) {fuel : Nat} {e : Stop RunStop}
    (h : Activation.run (tvmMeaning env p.tables) p.toCode fuel
      (Activation.init (tvmMeaning env p.tables) p.toCode (.initial world)) = .error e) : tvmRun env fuel vm = .error e := by
  have hdata := tvmRun_data hal (tvmInit_represents hinit) fuel
  rw [h] at hdata
  exact Except.map_eq_error hdata

/-- Where the machine with activations ends, `tvm_run` ends with the same data. -/
theorem tvmRun_finishes (hal : env.frames.Roomy) (hinit : tvmInit env p world = .ok vm) {fuel : Nat}
    {s : Activations Nat W} (h : Activation.run (tvmMeaning env p.tables) p.toCode fuel
      (Activation.init (tvmMeaning env p.tables) p.toCode (.initial world)) = .ok s) :
    ∃ vm', tvmRun env fuel vm = .ok vm' ∧ vm'.data = s.data.finish := by
  have hdata := tvmRun_data hal (tvmInit_represents hinit) fuel
  rw [h] at hdata
  exact Except.map_eq_ok hdata

/-- A run of `tvm_run` that ends is one of the machine with activations. -/
theorem halts_of_tvmRun (hal : env.frames.Roomy) (hinit : tvmInit env p world = .ok vm) {fuel : Nat}
    (h : tvmRun env fuel vm ≠ .error .fuel) : Activation.Halts (tvmMeaning env p.tables) p.toCode
      (Activation.init (tvmMeaning env p.tables) p.toCode (.initial world)) :=
  ⟨fuel, fun hrun => h (tvmRun_stops hal hinit hrun)⟩

end Runs

/-- The outline shows that a run stops in `F` only, and ends in `Q`. -/
structure TvmOutline.Shows {G : Type} (o : TvmOutline G W) (env : Env W) (p : TvmProgram) (world : W) (F : RunStop → Prop)
    (Q : Data W → Prop) : Prop where
  verifies : o.Verifies (tvmMeaning env p.tables) p.toCode
  start : ∃ g, o.height g 0 ∧ o.holds none 0 g (.initial world) (.fill ObjectT.zero)
  fails : ∀ x, o.fails x → F x
  ends : ∀ d, o.Ends p.toCode d → Q d.finish

end TileVm
