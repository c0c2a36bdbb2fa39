/-
What `loadc` reads. The machine checks the index of the constant, not its size: the four bytes lie
inside the constant data exactly when the constants from that one on have four bytes together, so
only constants at the end of the table can fail it.
-/
import TileVm.Image.Declarations
import TileVm.Vm.Run

namespace TileVm

variable {W : Type} {text : List Byte} {ast : TasmAst} {t : TasmTranslator} {p : TvmProgram} {k : Nat}

/-! ## The program of a source -/

/-- The program of an accepted source: as the translator leaves it, or as it is loaded from the file written of it. -/
inductive ProgramFrom (ast : TasmAst) (t : TasmTranslator) : TvmProgram → Prop
  | direct : ProgramFrom ast t t.program
  | loaded {stale : Nat → Byte} {pad : Nat → Padding} {args : CliParsedArgs} {t' : TasmTranslator} {bytes : List Byte}
      {p : TvmProgram} {r : ImageReader} (memory : WithinMemory ast.items) (names : args.CStrings)
      (saves : tasmTranslatorGenerateBin pad t args = .ok (t', bytes))
      (loads : tvmLoadProgramFromFile stale TvmProgram.zero (some bytes) = .ok (p, r)) : ProgramFrom ast t p

/-- It has the constants and the code that the translator left. -/
structure Carries (p q : TvmProgram) : Prop where
  constTable : p.constTable = q.constTable
  size : p.size = q.size
  code : ∀ i < q.size, p.code.get? i = q.code.get? i

theorem ProgramFrom.carries (hp : ProgramFrom ast t p) (h : Assembles text ast t) : Carries p t.program := by
  cases hp with
  | direct => exact ⟨rfl, rfl, fun _ _ => rfl⟩
  | @loaded stale pad _ _ _ _ _ memory names saves loads =>
    obtain ⟨t₁, bytes₁, p₁, r₁, hsaves, hloads, hof⟩ := h.loads memory names stale pad
    cases saves.symm.trans hsaves
    cases loads.symm.trans hloads
    exact ⟨hof.constTable, hof.size, hof.code⟩

theorem ProgramFrom.constTable (hp : ProgramFrom ast t p) (h : Assembles text ast t) :
    p.constTable = constTableOf (constsOf ast.items) :=
  (hp.carries h).constTable.trans h.tabled.constTable

/-! ## One load -/

/-- The next instruction is a `loadc` of constant `k` that passes its checks. -/
structure LoadsConst (vm : Vm W) (k : Nat) : Prop where
  fetched : ∃ inst, vm.program.code.get? vm.ip = some inst ∧ OpType.ofNat? inst.type.toNat = some .loadc ∧
    inst.operand.ui32.toNat = k
  room : vm.sp < tvmStackCapacity
  declared : k < vm.program.constTable.referanceCount

/-- The four bytes at the offset of constant `k` lie inside the constant data. -/
def WordInside (table : TvmConstTable) (k : Nat) : Prop := ∃ r, table.referances[k]? = some r ∧ r + 4 ≤ table.dataSize

/-- The constants from the `k`-th on have at least four bytes together. -/
def WordLeft (consts : List TasmAst) (k : Nat) : Prop := 4 ≤ ((consts.drop k).flatMap constBytes).length

/-- The offset of a constant and the bytes from it on make the data. -/
theorem wordInside_iff {consts : List TasmAst} (hk : k < consts.length) :
    WordInside (constTableOf consts) k ↔ WordLeft consts k := by
  have hoffset : (constTableOf consts).referances[k]? = some ((consts.take k).flatMap constBytes).length :=
    (offsets_getElem? 0 hk).trans (by rw [Nat.zero_add])
  have hsize : (constTableOf consts).dataSize =
      ((consts.take k).flatMap constBytes).length + ((consts.drop k).flatMap constBytes).length := by
    rw [← List.length_append, ← List.flatMap_append, List.take_append_drop]
    rfl
  constructor
  · rintro ⟨r, hr, hle⟩
    cases hr.symm.trans hoffset
    rw [hsize] at hle
    exact Nat.le_of_add_le_add_left hle
  · intro hleft
    refine ⟨_, hoffset, ?_⟩
    rw [hsize]
    exact Nat.add_le_add_left hleft _

/-- A load behind the data is a fault of the machine, a load inside is none. -/
theorem loadc_faults_iff (env : Env W) {vm : Vm W} (hload : LoadsConst vm k)
    (hdata : vm.program.constTable.data.length = vm.program.constTable.dataSize)
    (href : vm.program.constTable.referances.length = vm.program.constTable.referanceCount) :
    tvmExecOpcode env vm = .error (.outOfBounds .constData) ↔ ¬ WordInside vm.program.constTable k := by
  obtain ⟨⟨inst, hinst, hop, rfl⟩, hroom, hdeclared⟩ := hload
  have hr := List.getElem?_eq_getElem (href ▸ hdeclared : inst.operand.ui32.toNat < vm.program.constTable.referances.length)
  have hexec : tvmExecOpcode env vm = opLoadc inst vm := by
    rw [tvmExecOpcode, TvmProgram.fetch, Except.bind_of_ok (CArray.load_ok.2 hinst), tvmExecInst, hop]
    rfl
  obtain ⟨old, hold⟩ : ∃ old, vm.stack.get? vm.sp = some old := ⟨_, CArray.get?_of_lt vm.stack hroom⟩
  have hinside : WordInside vm.program.constTable inst.operand.ui32.toNat ↔
      vm.program.constTable.referances[inst.operand.ui32.toNat] + 4 ≤ vm.program.constTable.dataSize := by
    constructor
    · rintro ⟨r, hr', hle⟩
      cases hr'.symm.trans hr
      exact hle
    · exact fun hle => ⟨_, hr, hle⟩
  rw [hexec, hinside]
  unfold opLoadc
  rw [if_neg (Nat.not_le_of_lt hroom), if_neg (Nat.not_le_of_lt hdeclared), Except.bind_of_ok (referance_ok.2 hr)]
  dsimp only
  rw [List.length_take, List.length_drop, hdata]
  split
  · exact iff_of_true rfl (by omega)
  · rw [pushWith_ok hold]
    exact iff_of_false (fun h => nomatch h) (by omega)

/-! ## Every load of every run -/

section

variable {env : Env W} {world : W} {ρ : Nat → Vm W} {n i : Nat}

theorem LoadsConst.declared_const (h : Assembles text ast t) (hp : ProgramFrom ast t p) (hinit : tvmInit env p world = .ok (ρ 0))
    (hrun : Loop.Trace tvmRunCond (tvmRunBody env) ρ n) (hi : i ≤ n) (hload : LoadsConst (ρ i) k) :
    (ρ i).program.constTable = constTableOf (constsOf ast.items) ∧ k < (constsOf ast.items).length := by
  have htable := congrArg TvmProgram.constTable (tvmRun_program hinit hrun i hi)
  rw [hp.constTable h] at htable
  have hk := hload.declared
  rw [htable] at hk
  exact ⟨htable, hk⟩

theorem LoadsConst.inside_iff (h : Assembles text ast t) (hp : ProgramFrom ast t p) (hinit : tvmInit env p world = .ok (ρ 0))
    (hrun : Loop.Trace tvmRunCond (tvmRunBody env) ρ n) (hi : i ≤ n) (hload : LoadsConst (ρ i) k) :
    WordInside (ρ i).program.constTable k ↔ WordLeft (constsOf ast.items) k := by
  obtain ⟨htable, hk⟩ := hload.declared_const h hp hinit hrun hi
  rw [htable]
  exact wordInside_iff hk

end

/-- For every accepted source and every run of its program: every `loadc` that passes its checks reads inside the constant
data if and only if each of them has a word left behind the offset of its constant. -/
theorem loadc_inside_iff (h : Assembles text ast t) (hp : ProgramFrom ast t p) (env : Env W) (world : W) (ρ : Nat → Vm W)
    (n : Nat) (hinit : tvmInit env p world = .ok (ρ 0)) (hrun : Loop.Trace tvmRunCond (tvmRunBody env) ρ n) :
    (∀ i ≤ n, ∀ k, LoadsConst (ρ i) k → WordInside (ρ i).program.constTable k) ↔
      ∀ i ≤ n, ∀ k, LoadsConst (ρ i) k → WordLeft (constsOf ast.items) k := by
  constructor
  · intro hinside i hi k hload
    exact (hload.inside_iff h hp hinit hrun hi).1 (hinside i hi k hload)
  · intro hleft i hi k hload
    exact (hload.inside_iff h hp hinit hrun hi).2 (hleft i hi k hload)

/-- The text `@data -7`, `@data "a"`, `loadc 1`, `hlt`. -/
def shortLast : List Byte := cstr "@data -7\n@data \"a\"\nloadc 1\nhlt\n"

def shortLastTokens : List TasmToken :=
  [⟨.atSign, some (cstr "@")⟩, ⟨.data, some (cstr "data")⟩, ⟨.minus, some (cstr "-")⟩, ⟨.decimalNumber, some (cstr "7")⟩,
    ⟨.endline, some (cstr "endl")⟩,
    ⟨.atSign, some (cstr "@")⟩, ⟨.data, some (cstr "data")⟩, ⟨.quota, some (cstr "\"")⟩, ⟨.string, some (cstr "a")⟩,
    ⟨.quota, some (cstr "\"")⟩, ⟨.endline, some (cstr "endl")⟩,
    ⟨.op .loadc, some (cstr "loadc")⟩, ⟨.decimalNumber, some (cstr "1")⟩, ⟨.endline, some (cstr "endl")⟩,
    ⟨.op .halt, some (cstr "hlt")⟩, ⟨.endline, some (cstr "endl")⟩]

def shortLastAst : TasmAst :=
  .file [.data (some (.number (cstr "-7") (-7))), .data (some (.string (cstr "a") 1)),
    .op .loadc (some (cstr "loadc")) (some (.number (cstr "1") 1)), .op .halt (some (cstr "hlt")) none]

theorem shortLast_assembles : ∃ t, Assembles shortLast shortLastAst t :=
  assembles_of_run 30 (show (runOf 30 30 _).map (·.1) = some shortLastTokens by decide +kernel) ⟨_, rfl, rfl⟩ (by decide +kernel)

/-- The first instruction of a run of `shortLast` loads its second constant. -/
theorem shortLast_loads (ht : Assembles shortLast shortLastAst t) {vm : Vm Unit}
    (hinit : tvmInit (.bare [64]) t.program () = .ok vm) : LoadsConst vm 1 := by
  have hcode := ht.translated.code (shortLastAst.items.take 2) none .loadc (some (.number (cstr "1") 1)) _ rfl
  have hcount : t.program.constTable.referanceCount = 2 := by rw [ht.tabled.constTable]; rfl
  obtain ⟨hprog, hip, -⟩ := tvmInit_state hinit
  constructor
  · exact ⟨_, by rw [hprog, hip]; exact hcode, rfl, rfl⟩
  · obtain ⟨⟨frame, frames⟩, -, h⟩ := Except.bind_ok hinit
    cases h
    exact (by decide : 0 < tvmStackCapacity)
  · rw [hprog, hcount]
    decide

theorem shortLast_runs : ∃ t, Assembles shortLast shortLastAst t ∧ ∃ vm : Vm Unit, tvmInit (.bare [64]) t.program () = .ok vm ∧
    Loop.Trace tvmRunCond (tvmRunBody (.bare [64])) (fun _ => vm) 0 := by
  obtain ⟨t, ht⟩ := shortLast_assembles
  obtain ⟨vm, hinit, hgo⟩ : ∃ vm : Vm Unit, tvmInit (.bare [64]) t.program () = .ok vm ∧ vm.halted = false := ⟨_, rfl, rfl⟩
  have hcond : tvmRunCond vm = true := tvmRunCond_true.mpr ⟨hgo, by rw [(tvmInit_state hinit).2.1]; exact Nat.zero_le _⟩
  exact ⟨t, ht, vm, hinit, fun _ _ => hcond, fun i hi => absurd hi (Nat.not_lt_zero i)⟩

theorem loadc_inside_short : ∃ t, Assembles shortLast shortLastAst t ∧ ∃ vm : Vm Unit,
    tvmInit (.bare [64]) t.program () = .ok vm ∧ LoadsConst vm 1 ∧
      ((∀ i ≤ 0, ∀ k, LoadsConst ((fun _ => vm) i) k → WordInside ((fun _ => vm) i).program.constTable k) ↔
        ∀ i ≤ 0, ∀ k, LoadsConst ((fun _ => vm) i) k → WordLeft (constsOf shortLastAst.items) k) := by
  obtain ⟨t, ht, vm, hinit, hrun⟩ := shortLast_runs
  exact ⟨t, ht, vm, hinit, shortLast_loads ht hinit, loadc_inside_iff ht .direct (.bare [64]) () (fun _ => vm) 0 hinit hrun⟩

/-- `loadc 1` behind `@data -7` and `@data "a"` passes its checks and reads three bytes behind the data. -/
theorem loadc_reads_behind : ∃ t, Assembles shortLast shortLastAst t ∧ ∃ vm : Vm Unit,
    tvmInit (.bare [64]) t.program () = .ok vm ∧ Loop.Trace tvmRunCond (tvmRunBody (.bare [64])) (fun _ => vm) 0 ∧
      LoadsConst vm 1 ∧ ¬ WordInside vm.program.constTable 1 ∧
      tvmExecOpcode (.bare [64]) vm = .error (.outOfBounds .constData) := by
  obtain ⟨t, ht, vm, hinit, hrun⟩ := shortLast_runs
  have hload := shortLast_loads ht hinit
  have htable : vm.program.constTable = constTableOf (constsOf shortLastAst.items) := by
    rw [(tvmInit_state hinit).1]
    exact ht.tabled.constTable
  have hout : ¬ WordInside vm.program.constTable 1 := by
    rw [htable, wordInside_iff (by decide)]
    unfold WordLeft
    decide
  exact ⟨t, ht, vm, hinit, hrun, hload, hout,
    (loadc_faults_iff _ hload (by rw [htable]; rfl) (by rw [htable]; rfl)).2 hout⟩

/-! ## A long last constant -/

/-- Every constant has a word left when the last one is a word or longer. -/
theorem wordLeft_of_last {consts : List TasmAst} {last : TasmAst} (hlast : consts.getLast? = some last)
    (hlen : 4 ≤ (constBytes last).length) {k : Nat} (hk : k < consts.length) : WordLeft consts k := by
  obtain ⟨front, rfl⟩ := List.getLast?_eq_some_iff.1 hlast
  have hk : k ≤ front.length := by simpa [Nat.lt_succ_iff] using hk
  rw [WordLeft, List.drop_append_of_le_length hk, List.flatMap_append, List.length_append]
  simp only [List.flatMap_singleton]
  exact Nat.le_add_left_of_le hlen

/-- No load of any run reads behind the data of a source whose last constant is a number, or a string of four bytes. -/
theorem loads_inside_of_last (h : Assembles text ast t) (hp : ProgramFrom ast t p) {last : TasmAst}
    (hlast : (constsOf ast.items).getLast? = some last) (hlen : 4 ≤ (constBytes last).length) (env : Env W) (world : W)
    (ρ : Nat → Vm W) (n : Nat) (hinit : tvmInit env p world = .ok (ρ 0))
    (hrun : Loop.Trace tvmRunCond (tvmRunBody env) ρ n) :
    ∀ i ≤ n, ∀ k, LoadsConst (ρ i) k → WordInside (ρ i).program.constTable k := by
  intro i hi k hload
  obtain ⟨-, hk⟩ := hload.declared_const h hp hinit hrun hi
  exact (hload.inside_iff h hp hinit hrun hi).2 (wordLeft_of_last hlast hlen hk)

end TileVm
