/-
Where the names in a loaded program lead. A name becomes the number of instructions in front of a
declaration of it, which is inside the program unless no instruction stands behind that declaration:
the machine's range check can stop a run at a named instruction in that case only.
-/
import TileVm.Image.Assembled
import TileVm.Vm.Run

namespace TileVm

/-! ## Targets -/

/-- `d` declares the name that an instruction of the proc `scope` gives: a label of the scope, or a proc. -/
def Declares (scope : Option CStr) (x : CStr) (d : Item) : Prop := d = .label scope (some x) ∨ d = .proc (some x)

section Targets

variable {ast : TasmAst} {t : TasmTranslator} {pre post : List Item} {scope : Option CStr} {o : OpType} {x : CStr}

/-- A jump goes to a declaration of its name: the log it reads has the address of its label, or of the proc of that name. -/
theorem Translated.jump_target (h : Translated ast t) (hfit : ∀ i ∈ ast.items, ItemFits IdName i)
    (heq : ast.items = pre ++ .inst scope o (some (.labelCall (some x))) :: post) (ho : o.operandKind = .jump) :
    ∃ before d after, ast.items = before ++ d :: after ∧ Declares scope x d ∧
      t.program.code.get? (instCount pre) = some (.withUi32 o .vmAddress (.ofNat 32 (instCount before))) := by
  obtain ⟨j, hj, hcode⟩ := h.jump_code heq ho
  by_cases hjump : j.jumpName? = some (labelName scope x)
  · obtain ⟨before, after, hdecl⟩ := h.jump_declared hfit heq ho
    refine ⟨before, _, after, hdecl, .inl rfl, ?_⟩
    rw [hcode, if_pos hjump, h.label_addr hdecl]
  · -- the first to log the name is a call of a proc, and the jump is at file level
    obtain ⟨hjitems, hcall, rfl, -⟩ := first_call hfit heq hj hjump
    obtain ⟨before, after, hdecl⟩ := h.called hjitems hcall
    refine ⟨before, _, after, hdecl, .inr rfl, ?_⟩
    rw [hcode, if_neg hjump]
    exact congrArg _ (congrArg _ (h.proc_addr hdecl))

theorem Translated.call_target (h : Translated ast t)
    (heq : ast.items = pre ++ .inst scope .call (some (.labelCall (some x))) :: post) :
    ∃ before d after, ast.items = before ++ d :: after ∧ Declares scope x d ∧
      t.program.code.get? (instCount pre) = some (.withUi32 .call .vmAddress (.ofNat 32 (instCount before))) := by
  obtain ⟨before, after, hdecl⟩ := h.called (x := x) (i := .inst scope .call (some (.labelCall (some x))))
    (by simp [heq]) rfl
  refine ⟨before, _, after, hdecl, .inr rfl, ?_⟩
  rw [h.code pre scope .call _ post heq]
  simp only [opcodeOf, OpType.operandKind, if_true, h.proc_addr hdecl]

/-- The opcodes with a name as operand. -/
theorem named_kind (hfit : ∀ i ∈ ast.items, ItemFits IdName i)
    (heq : ast.items = pre ++ .inst scope o (some (.labelCall (some x))) :: post) : o.operandKind = .jump ∨ o = .call := by
  have hmem : .inst scope o (some (.labelCall (some x))) ∈ ast.items := by simp [heq]
  cases hfit _ hmem with
  | inst _ _ _ _ hop =>
    generalize hk : o.operandKind = kind at hop
    cases hop with
    | jumpLabel => exact .inl rfl
    | label => exact .inr (operandKind_label hk)

/-- Every name becomes the number of instructions before a declaration of it. -/
theorem Translated.name_target (h : Translated ast t) (hfit : ∀ i ∈ ast.items, ItemFits IdName i)
    (heq : ast.items = pre ++ .inst scope o (some (.labelCall (some x))) :: post) :
    ∃ before d after, ast.items = before ++ d :: after ∧ Declares scope x d ∧
      t.program.code.get? (instCount pre) = some (.withUi32 o .vmAddress (.ofNat 32 (instCount before))) := by
  rcases named_kind hfit heq with ho | rfl
  · exact h.jump_target hfit heq ho
  · exact h.call_target heq

end Targets

theorem Declares.size {scope : Option CStr} {x : CStr} {d : Item} (h : Declares scope x d) : d.size = 0 := by
  rcases h with rfl | rfl <;> rfl

/-! ## The range check -/

section Machine

variable {W : Type} {env : Env W} {p : TvmProgram}

/-- A run of the program ends with the exception at the instruction `i`. -/
def StopsAt (env : Env W) (p : TvmProgram) (i : Nat) (e : TvmException) : Prop :=
  ∃ world ρ n, tvmInit env p world = .ok (ρ 0) ∧ Loop.Trace tvmRunCond (tvmRunBody env) ρ n ∧ (ρ n).ip = i ∧
    tvmRunBody env (ρ n) = .error (.fault (.exit e))

/-- The machine stops at a jump or a call for its target only if the target is outside. -/
theorem outside_of_raise {o : OpType} {inst : Opcode} {vm vm' : Vm W} (ho : o.operandKind = .jump ∨ o = .call)
    (h : tvmExecOp env o inst vm = .ok (.invalidInstructionAccess, vm')) : vm.program.size ≤ inst.operand.ui32.toNat := by
  have jump (taken : BitVec 32 → Bool) (h : condJump taken inst vm = .ok (.invalidInstructionAccess, vm')) :
      vm.program.size ≤ inst.operand.ui32.toNat := by
    by_contra hlt
    unfold condJump at h
    rw [if_neg hlt] at h
    split at h
    · cases h
    · obtain ⟨top, -, h⟩ := Except.bind_ok h
      split at h <;> cases h
  rcases ho with ho | rfl
  · rw [operandKind_jump] at ho
    simp only [List.mem_cons, List.not_mem_nil, or_false] at ho
    rcases ho with rfl | rfl | rfl
    · by_contra hlt
      simp only [tvmExecOp, if_neg hlt] at h
      cases h
    · exact jump (· == 0) h
    · exact jump (· != 0) h
  · by_contra hlt
    have h : opCall env inst vm = .ok (.invalidInstructionAccess, vm') := h
    unfold opCall at h
    rw [if_neg hlt] at h
    split at h
    · cases h
    · obtain ⟨returnStack, -, h⟩ := Except.bind_ok h
      obtain ⟨⟨frame, frames⟩, -, h⟩ := Except.bind_ok h
      cases h

theorem StopsAt.outside {i : Nat} {c : Opcode} {o : OpType} (h : StopsAt env p i .invalidInstructionAccess)
    (hc : p.code.get? i = some c) (htype : c.type = o.code) (ho : o.operandKind = .jump ∨ o = .call) :
    p.size ≤ c.operand.ui32.toNat := by
  obtain ⟨world, ρ, n, hinit, hrun, hip, hstop⟩ := h
  have hprog := tvmRun_program hinit hrun n (Nat.le_refl n)
  have hexec : ∃ vm', tvmExecOpcode env (ρ n) = .ok (.invalidInstructionAccess, vm') := by
    unfold tvmRunBody at hstop
    split at hstop
    · cases hstop
    · split at hstop
      · cases hstop
        exact ⟨_, ‹_›⟩
      · cases hstop
  obtain ⟨vm', hexec⟩ := hexec
  obtain ⟨inst, hfetch, hexec⟩ := Except.bind_ok hexec
  have hinst := CArray.load_ok.mp hfetch
  rw [hprog, hip, hc] at hinst
  cases hinst
  rw [tvmExecInst, htype, OpType.ofNat?_code] at hexec
  rw [← hprog]
  exact outside_of_raise ho hexec

end Machine

/-! ## Names in loaded programs -/

/-- In the program that is loaded from the file of an accepted source, the operand of every instruction with a name is
the number of instructions before a declaration of the name. It is within the program exactly when an instruction stands
behind that declaration, and then no run stops there with an invalid instruction access. -/
theorem named_targets {text : List Byte} {ast : TasmAst} {t : TasmTranslator} (h : Assembles text ast t)
    (hmem : WithinMemory ast.items) {args : CliParsedArgs} (hlibs : args.CStrings) (stale : Nat → Byte)
    (pad : Nat → Padding) : ∃ t' bytes p r, tasmTranslatorGenerateBin pad t args = .ok (t', bytes) ∧
      tvmLoadProgramFromFile stale TvmProgram.zero (some bytes) = .ok (p, r) ∧
      ∀ pre scope o x post, ast.items = pre ++ .inst scope o (some (.labelCall (some x))) :: post →
        ∃ c before d after, p.code.get? (instCount pre) = some c ∧ c.type = o.code ∧
          ast.items = before ++ d :: after ∧ Declares scope x d ∧ c.operand.ui32.toNat = instCount before ∧
          c.operand.ui32.toNat ≤ p.size ∧ (c.operand.ui32.toNat < p.size ↔ 0 < instCount after) ∧
          ∀ (W : Type) (env : Env W), 0 < instCount after → ¬ StopsAt env p (instCount pre) .invalidInstructionAccess := by
  obtain ⟨t', bytes, p, r, hgen, hload, hp⟩ := h.loads hmem hlibs stale pad
  refine ⟨t', bytes, p, r, hgen, hload, ?_⟩
  intro pre scope o x post heq
  have htr := h.translated
  have hfit := items_fit h.idNames
  have hsize : p.size = instCount ast.items := hp.size.trans htr.size
  obtain ⟨before, d, after, hdecl, hd, hcode⟩ := htr.name_target hfit heq
  have hcount : instCount ast.items = instCount before + instCount after := by simp [hdecl, hd.size]
  have hpre : instCount pre < t.program.size := by
    rw [htr.size, heq]
    simp [Item.size]
  have hp_code := (hp.code (instCount pre) hpre).trans hcode
  have haddr := ui32_of_addr o (Nat.le_trans (instCount_le hdecl) htr.fits)
  refine ⟨_, before, d, after, hp_code, rfl, hdecl, hd, haddr, by omega, by omega, ?_⟩
  rintro W env hafter hstop
  have hout := hstop.outside hp_code rfl (named_kind hfit heq)
  omega

/-- The text `jmp end`, `hlt`, `end:`. -/
def jumpBehindEnd : List Byte := cstr "jmp end\nhlt\nend:\n"

def jumpBehindEndTokens : List TasmToken :=
  [⟨.op .jmp, some (cstr "jmp")⟩, ⟨.id, some (cstr "end")⟩, ⟨.endline, some (cstr "endl")⟩,
    ⟨.op .halt, some (cstr "hlt")⟩, ⟨.endline, some (cstr "endl")⟩,
    ⟨.id, some (cstr "end")⟩, ⟨.colon, some (cstr ":")⟩, ⟨.endline, some (cstr "endl")⟩]

def jumpBehindEndAst : TasmAst :=
  .file [.op .jmp (some (cstr "jmp")) (some (.labelCall (some (cstr "end")))), .op .halt (some (cstr "hlt")) none,
    .labelDecl (some (cstr "end"))]

theorem jumpBehindEnd_assembles : ∃ t, Assembles jumpBehindEnd jumpBehindEndAst t :=
  assembles_of_run 20 (show (runOf 20 20 _).map (·.1) = some jumpBehindEndTokens by decide +kernel) ⟨_, rfl, rfl⟩ (by decide +kernel)

theorem jumpBehindEnd_memory : WithinMemory jumpBehindEndAst.items := ⟨by decide, by decide⟩

/-- The text `jmp go`, `hlt`, `go:`, `call p`, `jmp end`, the proc `p` of `ret`, and `end:`. -/
def jumpOverHalt : List Byte := cstr "jmp go\nhlt\ngo:\ncall p\njmp end\nproc p\nret\nendp\nend:\n"

def jumpOverHaltTokens : List TasmToken :=
  let endl := ⟨.endline, some (cstr "endl")⟩
  let colon := ⟨.colon, some (cstr ":")⟩
  [⟨.op .jmp, some (cstr "jmp")⟩, ⟨.id, some (cstr "go")⟩, endl, ⟨.op .halt, some (cstr "hlt")⟩, endl,
    ⟨.id, some (cstr "go")⟩, colon, endl, ⟨.op .call, some (cstr "call")⟩, ⟨.id, some (cstr "p")⟩, endl,
    ⟨.op .jmp, some (cstr "jmp")⟩, ⟨.id, some (cstr "end")⟩, endl,
    ⟨.proc, some (cstr "proc")⟩, ⟨.id, some (cstr "p")⟩, endl, ⟨.op .ret, some (cstr "ret")⟩, endl,
    ⟨.endp, some (cstr "endp")⟩, endl, ⟨.id, some (cstr "end")⟩, colon, endl]

def jumpOverHaltAst : TasmAst :=
  .file [.op .jmp (some (cstr "jmp")) (some (.labelCall (some (cstr "go")))), .op .halt (some (cstr "hlt")) none,
    .labelDecl (some (cstr "go")), .op .call (some (cstr "call")) (some (.labelCall (some (cstr "p")))),
    .op .jmp (some (cstr "jmp")) (some (.labelCall (some (cstr "end")))),
    .proc (some (cstr "p")) [.op .ret (some (cstr "ret")) none], .labelDecl (some (cstr "end"))]

theorem jumpOverHalt_assembles : ∃ t, Assembles jumpOverHalt jumpOverHaltAst t :=
  assembles_of_run 40 (show (runOf 40 40 _).map (·.1) = some jumpOverHaltTokens by decide +kernel) ⟨_, rfl, rfl⟩ (by decide +kernel)

/-- Its first jump goes to an instruction of the program, and no run stops at it. -/
theorem named_targets_go : ∃ t, Assembles jumpOverHalt jumpOverHaltAst t ∧
    ∃ t' bytes p r, tasmTranslatorGenerateBin (fun _ => ⟨1, 2⟩) t oneLib = .ok (t', bytes) ∧
      tvmLoadProgramFromFile (fun _ => 0) TvmProgram.zero (some bytes) = .ok (p, r) ∧
      ∃ c, p.code.get? 0 = some c ∧ c.type = OpType.jmp.code ∧ c.operand.ui32.toNat < p.size ∧
        ∀ (W : Type) (env : Env W), ¬ StopsAt env p 0 .invalidInstructionAccess := by
  obtain ⟨t, ht⟩ := jumpOverHalt_assembles
  obtain ⟨t', bytes, p, r, hgen, hload, hnamed⟩ := named_targets ht ⟨by decide, by decide⟩ oneLib_strings (fun _ => 0) fun _ => ⟨1, 2⟩
  obtain ⟨c, before, d, after, hcode, htype, hdecl, hd, -, -, hin, hruns⟩ := hnamed [] none .jmp (cstr "go") _ rfl
  -- an instruction stands behind each item that declares the name
  have hbehind : ∀ rest ∈ jumpOverHaltAst.items.tails,
      (rest.head?.bind Item.labelName? = some (cstr "go") ∨ rest.head?.bind Item.procName? = some (cstr "go")) →
        0 < instCount rest.tail := by decide
  have hafter : 0 < instCount after := by
    refine hbehind (d :: after) ((List.mem_tails _ _).2 ⟨before, hdecl.symm⟩) ?_
    rcases hd with rfl | rfl
    · exact .inl rfl
    · exact .inr rfl
  exact ⟨t, ht, t', bytes, p, r, hgen, hload, c, hcode, htype, hin.2 hafter, fun W env => hruns W env hafter⟩

/-- The run of a program that jumps to a label behind its last instruction stops at the jump. -/
theorem jump_behind_end : ∃ t, Assembles jumpBehindEnd jumpBehindEndAst t ∧
    ∃ t' bytes p r, tasmTranslatorGenerateBin (fun _ => ⟨1, 2⟩) t oneLib = .ok (t', bytes) ∧
      tvmLoadProgramFromFile (fun _ => 0) TvmProgram.zero (some bytes) = .ok (p, r) ∧
      ∃ c, p.code.get? 0 = some c ∧ c.type = OpType.jmp.code ∧ ¬ c.operand.ui32.toNat < p.size ∧
        StopsAt (.bare [64]) p 0 .invalidInstructionAccess := by
  obtain ⟨t, ht⟩ := jumpBehindEnd_assembles
  obtain ⟨t', bytes, p, r, hgen, hload, hp⟩ := ht.loads jumpBehindEnd_memory oneLib_strings (fun _ => 0) fun _ => ⟨1, 2⟩
  have hsize : p.size = 2 := hp.size.trans ht.translated.size
  have hitems : jumpBehindEndAst.items = [] ++ .inst none .jmp (some (.labelCall (some (cstr "end")))) :: _ := rfl
  obtain ⟨before, d, after, hdecl, hd, hcode⟩ := ht.translated.name_target (items_fit ht.idNames) hitems
  have hbefore : instCount before = 2 := by
    rcases before with _ | ⟨_, _ | ⟨_, _ | _⟩⟩ <;> rcases hd with rfl | rfl <;>
      simp [jumpBehindEndAst, TasmAst.items, fileItems, lineItem] at hdecl
    obtain ⟨rfl, rfl, -⟩ := hdecl
    rfl
  rw [hbefore] at hcode
  have hcode := (hp.code 0 (show 0 < t.program.size by rw [ht.translated.size]; decide)).trans hcode
  refine ⟨t, ht, t', bytes, p, r, hgen, hload, _, hcode, rfl, by rw [hsize]; decide, ?_⟩
  obtain ⟨vm, hinit, hgo⟩ : ∃ vm, tvmInit (.bare [64]) p () = .ok vm ∧ vm.halted = false := ⟨_, rfl, rfl⟩
  obtain ⟨rfl, hip, -⟩ := tvmInit_state hinit
  have hcond : tvmRunCond vm = true := tvmRunCond_true.mpr ⟨hgo, by omega⟩
  refine ⟨(), fun _ => vm, 0, hinit, ⟨fun _ _ => hcond, by omega⟩, hip, ?_⟩
  have hexec : tvmExecOpcode (.bare [64]) vm = .ok (.invalidInstructionAccess, vm) := by
    rw [tvmExecOpcode, hip, TvmProgram.fetch, Except.bind_of_ok (CArray.load_ok.mpr hcode)]
    show (if vm.program.size ≤ 2 then raise .invalidInstructionAccess vm else _) = _
    rw [if_pos (by omega)]
    rfl
  rw [tvmRunBody, hexec]
  rfl

end TileVm
