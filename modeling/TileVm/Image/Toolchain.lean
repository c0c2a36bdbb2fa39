/-
The assembler and the machine, one behind the other: what is assembled from a text and written, and
then given to `main` of the machine, prints what the document means, or raises its exception.
-/
import TileVm.Image.SourceRun
import TileVm.Vm.Main

namespace TileVm

variable {W : Type} {env : Env W} {pf : Platform W} {p : TvmProgram} {tci : Tci} {world world' : W} {vm : Vm W}

/-! ## `main` on a file -/

/-- Another program and another library in the state of `tvm_init`. -/
theorem tvmInit_load (h : tvmInit env .zero world = .ok vm) (p : TvmProgram) (world' : W) :
    tvmInit env p world' = .ok { vm with program := p, world := world' } := by
  unfold tvmInit at h ⊢
  obtain ⟨⟨frame, frames⟩, hframe, h⟩ := Except.bind_ok h
  cases h
  rw [Except.bind_of_ok hframe]
  rfl

section OnFile

variable {stale : Nat → Byte} {files : CStr → Option (List Byte)} {cmd fileName : CStr} {r : ImageReader} {out : List Byte}

/-- `main`, with a file that loads and a library that opens, is `tvm_run` between the two. -/
theorem tvmMain_loaded (hinit : tvmInit env .zero world = .ok vm)
    (hload : tvmLoadProgramFromFile stale .zero (files fileName) = .ok (p, r))
    (hlibrary : tvmMainLibrary pf p world = .ok (tci, out, world')) (fuel : Nat) :
    tvmMain env pf stale files fuel [cmd, fileName] world = do
      let vm ← (tvmRunLinked env pf tci fuel { vm with program := p, world := world' }).mapError MainStop.ofRun
      let world ← (tci.unloadAll pf vm.world).mapError fun s => .fault (.run (.tci s))
      return ⟨0, out ++ vm.out, world⟩ := by
  obtain ⟨hprogram, hworld⟩ := tvmInit_fields hinit
  show ((tvmInit env .zero world).mapError _ >>= _) = _
  rw [hinit, show (Except.ok vm : Except Fault (Vm W)).mapError (fun f => Stop.fault (MainStop.run (.tci (.fault f)))) = .ok vm from rfl,
    Except.bind_of_ok rfl, hprogram, hload]
  show ((tvmMainLibrary pf p vm.world).mapError _ >>= _) = _
  rw [hworld, hlibrary]
  rfl

theorem run_linked_load (env : Env W) (vm : Vm W)
    (hload : tvmLoadProgramFromFile stale .zero (files fileName) = .ok (p, r))
    (hlibrary : tvmMainLibrary pf p world = .ok (tci, out, world')) (fuel : Nat) : Except.Mirrors (Stop.Mirrors StopsAlike)
      (tvmRunLinked env pf tci fuel { vm with program := p, world := world' })
      (tvmRun (env.withTci pf tci) fuel { vm with program := p, world := world' }) :=
  run_linked env (mainLibrary_serves hload hlibrary) rfl fuel

/-- `main` returns when `tvm_run` does and the library closes. -/
theorem tvmMain_returns (hinit : tvmInit env .zero world = .ok vm)
    (hload : tvmLoadProgramFromFile stale .zero (files fileName) = .ok (p, r))
    (hlibrary : tvmMainLibrary pf p world = .ok (tci, out, world')) (fuel : Nat) (e : TvmExit W) :
    tvmMain env pf stale files fuel [cmd, fileName] world = .ok e ↔ ∃ d w,
      (tvmRun (env.withTci pf tci) fuel { vm with program := p, world := world' }).map Vm.data = .ok d ∧
      tci.unloadAll pf d.world = .ok w ∧ e = ⟨0, out ++ d.out, w⟩ := by
  have hlinked := (run_linked_load env vm hload hlibrary fuel).ok_iff
  rw [tvmMain_loaded hinit hload hlibrary]
  constructor
  · intro h
    obtain ⟨vm', hrun, h⟩ := Except.bind_ok h
    obtain ⟨w, hunload, h⟩ := Except.bind_ok h
    cases h
    rw [(hlinked vm').1 (Except.mapError_eq_ok.1 hrun)]
    exact ⟨vm'.data, w, rfl, Except.mapError_eq_ok.1 hunload, rfl⟩
  · rintro ⟨d, w, hrun, hunload, rfl⟩
    obtain ⟨vm', hvm', rfl⟩ := Except.map_eq_ok hrun
    have hunload : tci.unloadAll pf vm'.world = .ok w := hunload
    rw [Except.bind_of_ok (Except.mapError_eq_ok.2 ((hlinked vm').2 hvm')),
      Except.bind_of_ok (Except.mapError_eq_ok.2 hunload)]
    rfl

/-- `main` exits with an exception when `tvm_run` does. -/
theorem tvmMain_raises (hinit : tvmInit env .zero world = .ok vm)
    (hload : tvmLoadProgramFromFile stale .zero (files fileName) = .ok (p, r))
    (hlibrary : tvmMainLibrary pf p world = .ok (tci, out, world')) (fuel : Nat) (x : TvmException) :
    tvmMain env pf stale files fuel [cmd, fileName] world = .error (.fault (.run (.exit x))) ↔
      (tvmRun (env.withTci pf tci) fuel { vm with program := p, world := world' }).map Vm.data = .error (.fault (.exit x)) := by
  have hlinked := run_linked_load env vm hload hlibrary fuel
  rw [tvmMain_loaded hinit hload hlibrary]
  revert hlinked
  generalize tvmRunLinked env pf tci fuel _ = a
  generalize tvmRun (env.withTci pf tci) fuel _ = b
  intro hlinked
  cases hlinked with
  | ok vm' =>
    refine iff_of_false (fun h => ?_) nofun
    rw [Except.bind_of_ok (Except.mapError_eq_ok.2 rfl)] at h
    cases hunload : tci.unloadAll pf vm'.world <;> rw [hunload] at h <;> cases h
  | error hstop =>
    cases hstop with
    | fuel => exact iff_of_false nofun nofun
    | fault hmirrors =>
      cases hmirrors with
      | fault => exact iff_of_false nofun nofun
      | exit y => exact ⟨fun h => by cases h; rfl, fun h => by cases h; rfl⟩

end OnFile

/-! ## From the text to the process -/

variable {text : List Byte} {ast : TasmAst} {t : TasmTranslator}

/-- What `main` prints of the library `m`, and behind the run. -/
def libraryOpened : List Byte :=
  cstr "xx:m\n" ++ Tci.clrWhite ++ cstr "Runtime library loaded " ++ Tci.clrGreen ++ cstr "successfully. " ++ clrEnd ++ cstr "m\n"
def programHalted : List Byte := cstr "Program halted " ++ 27 :: cstr "[0;32m" ++ cstr "succesfully...\n" ++ clrEnd

end TileVm
