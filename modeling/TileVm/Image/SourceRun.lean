/-
The assembler keeps the meaning of the source. The points of the document and the addresses of the
program correspond, so that the run of the program, written to a file and loaded or not, comes to what
the run of the document comes to.
-/
import TileVm.Image.ConstBounds
import TileVm.Tasm.Scopes
import TileVm.Tasm.Source

namespace TileVm

variable {W : Type} {text : List Byte} {ast : TasmAst} {t : TasmTranslator} {p : TvmProgram}

/-! ## Points and addresses -/

/-- `rest` stands behind `ip` instructions. -/
def StandsAt (items rest : List Item) (ip : Nat) : Prop := ∃ before, items = before ++ rest ∧ instCount before = ip

theorem StandsAt.total {items rest : List Item} {ip : Nat} (h : StandsAt items rest ip) :
    instCount items = ip + instCount rest := by
  obtain ⟨before, rfl, rfl⟩ := h
  exact instCount_append before rest

theorem takesTarget_iff {o : OpType} : o.takesTarget = true ↔ o.operandKind = .jump ∨ o.operandKind = .label := by
  cases o <;> decide

theorem Opcode.takesTarget_of_type {c : Opcode} {o : OpType} (h : c.type = o.code) : c.takesTarget = o.takesTarget := by
  unfold Opcode.takesTarget
  rw [h, OpType.ofNat?_code]
  rfl

theorem withoutTarget_of_takes {c : Opcode} {o : OpType} (h : c.type = o.code) (ho : o.takesTarget = true) :
    c.withoutTarget = .plain o := by
  unfold Opcode.withoutTarget
  rw [Opcode.takesTarget_of_type h, if_pos ho, h]
  rfl

theorem withoutTarget_of_not {c : Opcode} {o : OpType} (h : c.type = o.code) (ho : o.takesTarget = false) :
    c.withoutTarget = c := by
  unfold Opcode.withoutTarget
  rw [Opcode.takesTarget_of_type h, ho]
  rfl

/-- Apart from its target, the opcode of an instruction is that of the source. -/
theorem opcodeOf_withoutTarget {N : Option CStr → Prop} {scope : Option CStr} {o : OpType} {operand : Option TasmAst}
    (hfit : o.operandKind.Fits N operand) (s : SymbolTable) (log : List Symbol) :
    (opcodeOf s log scope o operand).withoutTarget = SourceInst.opcode ⟨scope, o, operand⟩ := by
  have htype : (opcodeOf s log scope o operand).type = o.code := (opcodeOf_carries s log scope o operand).1
  unfold SourceInst.opcode
  cases ho : o.takesTarget with
  | true => rw [withoutTarget_of_takes htype ho, if_pos rfl]
  | false =>
    rw [withoutTarget_of_not htype ho, if_neg (by simp)]
    have hkind : ¬ (o.operandKind = .jump ∨ o.operandKind = .label) := by
      rw [← takesTarget_iff, ho]
      exact Bool.false_ne_true
    generalize o.operandKind = kind at hfit hkind
    cases hfit with
    | nothing | pushNumber | int => rfl
    | pushChar c => cases c <;> rfl
    | jumpNumber | jumpLabel => exact absurd (.inl rfl) hkind
    | label => exact absurd (.inr rfl) hkind

/-! ## Declarations -/

/-- A document with distinct names has one declaration of a name. -/
theorem behind_declared {name? : Item → Option CStr} {d : Item → Bool} {items before after : List Item} {i : Item}
    {n : CStr} (hnodup : (items.filterMap name?).Nodup) (hd : ∀ j, d j = true → name? j = some n) (hi : d i = true)
    (heq : items = before ++ i :: after) : behind d items = some after := by
  rw [heq]
  refine behind_split hi fun j hj => ?_
  rw [Bool.eq_false_iff]
  intro hdj
  rw [heq, List.filterMap_append, List.filterMap_cons, hd i hi] at hnodup
  exact (List.nodup_append.mp hnodup).2.2 n (List.mem_filterMap.mpr ⟨j, hj, hd j hdj⟩) n (List.mem_cons_self ..) rfl

theorem isLabel_name {scope : Option CStr} {x : CStr} {j : Item} (h : isLabel scope x j = true) :
    j.labelName? = some (labelName scope x) := by
  unfold isLabel at h
  split at h
  · rename_i scope' x'
    obtain ⟨hs, hx⟩ := Bool.and_eq_true_iff.mp h
    rw [← eq_of_beq hs, ← eq_of_beq hx]
    rfl
  · cases h

theorem isProc_name {x : CStr} {j : Item} (h : isProc x j = true) : j.procName? = some x := by
  unfold isProc at h
  split at h
  · rw [← eq_of_beq h]
    rfl
  · cases h

/-! ## The correspondence -/

section Corresponds

variable {pre post rest : List Item} {scope : Option CStr} {o : OpType} {operand : Option TasmAst} {x : CStr} {ip : Nat}

/-- The opcode at the address of an instruction. -/
theorem Carries.opcode_at (hp : Carries p t.program) (h : Translated ast t)
    (heq : ast.items = pre ++ .inst scope o operand :: post) : p.code.get? (instCount pre) =
      some (opcodeOf t.symbols (callLog t.symbols (pre ++ [.inst scope o operand])) scope o operand) := by
  have hlt : instCount pre < t.program.size := by
    rw [h.size, heq]
    simp only [instCount_append, instCount_cons, Item.size]
    omega
  exact (hp.code _ hlt).trans (h.code pre scope o operand post heq)

/-- Behind a declaration stands what its address has behind it. -/
theorem declared_standsAt {i : Item} (heq : ast.items = pre ++ i :: post) (hi : i.size = 0) :
    StandsAt ast.items post (instCount pre) := by
  refine ⟨pre ++ [i], by simp [heq], ?_⟩
  simp [hi]

/-- A jump to a label goes on behind the label of its scope. -/
theorem label_target (h : Translated ast t) (hfit : ∀ i ∈ ast.items, ItemFits IdName i) (hcond : NoCallShadows ast.items)
    (hp : Carries p t.program) (heq : ast.items = pre ++ .inst scope o (some (.labelCall (some x))) :: post)
    (ho : o.operandKind = .jump) : ∃ after addr c, behind (isLabel scope x) ast.items = some after ∧
      StandsAt ast.items after addr ∧ p.code.get? (instCount pre) = some c ∧ c.type = o.code ∧ c.operand.ui32.toNat = addr := by
  obtain ⟨before, after, hdecl, hcode⟩ := h.jump_right hfit hcond heq ho
  have hnodup := h.labelsNodup
  rw [h.labelDecls, declared_names] at hnodup
  refine ⟨after, instCount before, _, ?_, declared_standsAt hdecl rfl, ?_, rfl,
    ui32_of_addr o (Nat.le_trans (instCount_le hdecl) h.fits)⟩
  · exact behind_declared hnodup (fun j => isLabel_name) (by simp [isLabel]) hdecl
  · rw [hp.opcode_at h heq, ← hcode, h.code _ _ _ _ _ heq]

/-- A call goes on behind its proc. -/
theorem proc_target (h : Translated ast t) (hp : Carries p t.program)
    (heq : ast.items = pre ++ .inst scope .call (some (.labelCall (some x))) :: post) :
    ∃ after addr c, behind (isProc x) ast.items = some after ∧ StandsAt ast.items after addr ∧
      p.code.get? (instCount pre) = some c ∧ c.type = OpType.call.code ∧ c.operand.ui32.toNat = addr := by
  obtain ⟨before, after, hdecl⟩ := h.called (x := x) (i := .inst scope .call (some (.labelCall (some x)))) (by simp [heq]) rfl
  have hnodup := h.procsNodup
  rw [h.procDecls, declared_names] at hnodup
  refine ⟨after, instCount before, _, ?_, declared_standsAt hdecl rfl, hp.opcode_at h heq, rfl, ?_⟩
  · exact behind_declared hnodup (fun j => isProc_name) (by simp [isProc]) hdecl
  · simp only [opcodeOf, OpType.operandKind, if_true, h.proc_addr hdecl]
    exact ui32_of_addr _ (Nat.le_trans (instCount_le hdecl) h.fits)

/-- A target is an instruction, on both sides. -/
theorem target_rel {c : Opcode} {after : List Item} {addr : Nat} (hsize : p.size = instCount ast.items)
    (hc : p.code.get? ip = some c) (htype : c.type = o.code) (ho : o.takesTarget = true)
    (haddr : c.operand.ui32.toNat = addr)
    (hrel : (addr < p.size → StandsAt ast.items after addr) ∧ (p.size ≤ addr → instCount after = 0)) :
    Option.Rel (StandsAt ast.items) ((some after).filter fun rest => decide (0 < instCount rest)) (p.toCode.target ip) := by
  have htakes : c.takesTarget = true := (Opcode.takesTarget_of_type htype).trans ho
  simp only [TvmProgram.toCode, hc, htakes, Bool.true_and, haddr, Option.filter_some]
  by_cases hlt : addr < p.size
  · have hstands := hrel.1 hlt
    have htotal := hstands.total
    have hpos : 0 < instCount after := by omega
    simp only [decide_eq_true hlt, decide_eq_true hpos, if_true]
    exact .some hstands
  · have hzero := hrel.2 (Nat.le_of_not_lt hlt)
    rw [hzero, if_neg (by simp), if_neg (by simpa using hlt)]
    exact .none

/-- Where an instruction of the document points, there points its opcode. -/
theorem target_standsAt (h : Translated ast t) (hfit : ∀ i ∈ ast.items, ItemFits IdName i) (hcond : NoCallShadows ast.items)
    (hp : Carries p t.program) (heq : ast.items = pre ++ .inst scope o operand :: post) :
    Option.Rel (StandsAt ast.items) (SourceInst.target ast.items ⟨scope, o, operand⟩) (p.toCode.target (instCount pre)) := by
  have hsize : p.size = instCount ast.items := hp.size.trans h.size
  have hcode := hp.opcode_at h heq
  unfold SourceInst.target
  cases ho : o.takesTarget with
  | false =>
    have htakes : (opcodeOf t.symbols (callLog t.symbols (pre ++ [.inst scope o operand])) scope o operand).takesTarget = false :=
      (Opcode.takesTarget_of_type (opcodeOf_carries _ _ _ _ _).1).trans ho
    simp only [TvmProgram.toCode, hcode, htakes]
    exact .none
  | true =>
    have hmem : .inst scope o operand ∈ ast.items := by simp [heq]
    rcases takesTarget_iff.mp ho with hk | hk
    · -- a jump names a number or a label
      have hcall : o ≠ .call := by rintro rfl; cases hk
      cases hfit _ hmem with
      | inst _ _ _ hs hoperand =>
        rw [hk] at hoperand
        cases hoperand with
        | jumpNumber text v =>
          refine target_rel hsize hcode rfl ho (congrArg _ (Opcode.withUi32_ui32 _ _ _)) ⟨fun hlt => ?_, fun hle => ?_⟩
          · rw [hsize] at hlt
            exact fromInst_split hlt
          · rw [hsize] at hle
            exact fromInst_end hle
        | jumpLabel n hn =>
          obtain ⟨x, rfl, -⟩ := hn
          obtain ⟨after, addr, c, hbehind, hstands, hc, htype, haddr⟩ := label_target h hfit hcond hp heq hk
          simp only [if_neg hcall, hbehind]
          have htotal := hstands.total
          exact target_rel hsize hc htype ho haddr ⟨fun _ => hstands, fun _ => by omega⟩
    · -- a call names a proc
      obtain rfl := operandKind_label hk
      cases hfit _ hmem with
      | inst _ _ _ hs hoperand =>
        cases hoperand with
        | label n hn =>
          obtain ⟨x, rfl, -⟩ := hn
          obtain ⟨after, addr, c, hbehind, hstands, hc, htype, haddr⟩ := proc_target h hp heq
          simp only [hbehind]
          have htotal := hstands.total
          exact target_rel hsize hc htype ho haddr ⟨fun _ => hstands, fun _ => by omega⟩

/-- The document and the program are corresponding codes. -/
theorem code_corresponds (h : Translated ast t) (hfit : ∀ i ∈ ast.items, ItemFits IdName i) (hcond : NoCallShadows ast.items)
    (hp : Carries p t.program) : (sourceCode ast.items).Corresponds (StandsAt ast.items)
      (p.toCode.upTo fun ip => decide (ip < p.size)) := by
  have hsize : p.size = instCount ast.items := hp.size.trans h.size
  -- the instruction at a point that has one
  have split (rest : List Item) (ip : Nat) (hat : StandsAt ast.items rest ip) (hin : (sourceCode ast.items).inside rest = true) :
      ∃ i after pre, nextInst rest = some (i, after) ∧ ast.items = pre ++ .inst i.scope i.op i.operand :: after ∧ instCount pre = ip := by
    obtain ⟨skip, i, after, hnext, rfl, hskip⟩ := nextInst_split (of_decide_eq_true hin)
    obtain ⟨before, heq, hcount⟩ := hat
    exact ⟨i, after, before ++ skip, hnext, by rw [heq, List.append_assoc], by simp [hcount, hskip]⟩
  constructor
  · exact ⟨[], rfl, rfl⟩
  · intro rest ip hat
    have htotal := hat.total
    show decide (ip < p.size) = decide (0 < instCount rest)
    rw [hsize, htotal]
    simp
  · intro rest ip hat hin
    obtain ⟨i, after, pre, hnext, heq, rfl⟩ := split rest ip hat hin
    have hcode := hp.opcode_at h heq
    simp only [sourceCode, hnext, TvmProgram.toCode, TvmProgram.fetch, CArray.load, hcode]
    cases hfit _ (by rw [heq]; simp : Item.inst i.scope i.op i.operand ∈ ast.items) with
    | inst _ _ _ hs hoperand => rw [opcodeOf_withoutTarget hoperand]
  · intro rest ip hat hin
    obtain ⟨i, after, pre, hnext, heq, rfl⟩ := split rest ip hat hin
    simp only [sourceCode, hnext, Option.bind_some]
    exact target_standsAt h hfit hcond hp heq
  · intro rest ip hat hin
    obtain ⟨i, after, pre, hnext, heq, rfl⟩ := split rest ip hat hin
    simp only [sourceCode, hnext]
    refine ⟨pre ++ [.inst i.scope i.op i.operand], by simp [heq], ?_⟩
    have hfits := h.fits
    have hcap : tvmProgramCapacity = 1024 := rfl
    rw [heq] at hfits
    simp only [instCount_append, instCount_cons, Item.size, instCount_nil] at hfits ⊢
    show _ = wordSucc (instCount pre)
    unfold wordSucc
    omega

end Corresponds

/-! ## Behind the last instruction -/

/-- The cells behind the code hold what they were initialized with. -/
def TvmProgram.Blank (p : TvmProgram) : Prop := ∀ i, p.size ≤ i → p.code.get? i = TvmProgram.zero.code.get? i

theorem Pushed.blank {t' : TasmTranslator} {c : Opcode} (h : Pushed t c t') (hb : t.program.Blank) : t'.program.Blank := by
  intro i hi
  rw [h.size] at hi
  rw [h.code, CArray.get?_put_of_ne _ _ (by omega)]
  exact hb i (Nat.le_of_succ_le hi)

/-- The third pass writes no cell behind the code, unless a name is unresolved. -/
theorem emitStep_blank {N : Option CStr → Prop} {t' : TasmTranslator} {i : Item} (hi : ItemFits N i)
    (hlog : LogFound t.symbols.labelCalls) (h : t.symbols.err = true ∨ t.program.Blank) (hs : emitStep t i = .ok t') :
    t'.symbols.err = true ∨ t'.program.Blank := by
  cases hi with
  | inst scope o operand _ hoperand =>
    rcases inst_outcome hlog hoperand hs with ⟨herr, -⟩ | ⟨log, -, -, hpush⟩
    · exact .inl herr
    · have hsymbols : t'.symbols = { t.symbols with labelCalls := log } := hpush.symbols
      exact h.imp (fun herr => by rw [hsymbols]; exact herr) fun hb => hpush.blank hb
  | label | proc =>
    cases hs
    exact h
  | metadata node hnode hline =>
    obtain ⟨hsymbols, hcode, hsize⟩ := metadata_frame hnode hline hs
    refine h.imp (fun herr => by rw [hsymbols]; exact herr) fun hb i hi => ?_
    rw [hcode]
    exact hb i (hsize ▸ hi)

theorem translate_blank {N : Option CStr → Prop} (hast : WellFormed N ast) (h : tasmTranslate ast = .ok t)
    (herr : t.symbols.err = false) : t.program.Blank := by
  unfold tasmTranslate at h
  obtain ⟨t₁, h₁, h⟩ := Except.bind_ok h
  obtain ⟨t₂, h₂, h₃⟩ := Except.bind_ok h
  rw [resolveProcs_eq hast] at h₁
  rw [resolveLabels_eq hast] at h₂
  rw [translateUnit_eq hast] at h₃
  obtain ⟨rfl, -, -⟩ := procs_resolved rfl rfl h₁
  obtain ⟨rfl, -, -⟩ := labels_resolved rfl rfl h₂
  have hfit := items_fit hast
  generalize ht₂ : ({ tasmTranslatorInit with symbols := _ } : TasmTranslator) = t₂ at h₃
  have hfound : LogFound t₂.symbols.labelCalls := by simp [← ht₂, LogFound, tasmTranslatorInit]
  have hstart : Emitted t₂ [] t₂ :=
    ⟨by rw [← ht₂]; rfl, by rw [← ht₂]; rfl, by simp, hfound, by simp, fun pre scope o operand post heq => by simp at heq⟩
  obtain ⟨-, -, hblank⟩ := Except.foldlM_inv (fun items t => LogFound t.symbols.labelCalls ∧
      (t.symbols.err = true ∨ Emitted t₂ items t) ∧ (t.symbols.err = true ∨ t.program.Blank)) ast.items [] t₂ t
    (fun pre i post c c' heq hP hs => by
      have hi := hfit i (by rw [← List.nil_append ast.items, heq]; simp)
      obtain ⟨hlog, hemitted⟩ := emitStep_spec hi hP.1 hP.2.1 hs
      exact ⟨hlog, hemitted, emitStep_blank hi hP.1 hP.2.2 hs⟩)
    ⟨hfound, .inr hstart, .inr fun i _ => by rw [← ht₂]; rfl⟩ h₃
  rcases hblank with he | hb
  · rw [he] at herr; cases herr
  · exact hb

/-- The loader stores one cell for each turn. -/
theorem loadCode_above {stale : Nat → Byte} {code code' : CArray Opcode tvmProgramCapacity} {i n : Nat} {r r' : ImageReader}
    (h : loadCode stale code i n r = .ok (code', r')) : ∀ j, i + n ≤ j → code'.get? j = code.get? j := by
  induction n generalizing code i r with
  | zero =>
    cases h
    exact fun j _ => rfl
  | succ n ih =>
    intro j hj
    by_cases hnil : r.rest = []
    · rw [loadCode_eof stale hnil] at h
      cases h
      rfl
    · rw [loadCode_cell stale hnil] at h
      obtain ⟨cell, r₁, -, h⟩ := Tape.bind_ok h
      obtain ⟨code₁, r₂, hstore, h⟩ := Tape.bind_ok h
      obtain ⟨code₂, hstore', hlift⟩ := Except.bind_ok hstore
      cases hlift
      obtain ⟨-, rfl⟩ := CArray.store_ok.1 hstore'
      rw [ih h j (by omega), CArray.get?_put_of_ne _ _ (by omega)]

theorem load_blank {stale : Nat → Byte} {bytes : List Byte} {r : ImageReader}
    (h : tvmLoadProgramFromFile stale TvmProgram.zero (some bytes) = .ok (p, r)) : p.Blank := by
  obtain ⟨⟨metadata, table⟩, r', hheader, -⟩ := Tape.bind_ok (load_ok.1 h)
  have hrun := load_ok.1 h
  rw [loadImage_of_header stale hheader] at hrun
  obtain ⟨⟨code, r''⟩, hcode, hdone⟩ := Except.bind_ok hrun
  cases hdone
  exact fun i hi => loadCode_above hcode i (by rw [Nat.zero_add]; exact hi)

theorem ProgramFrom.blank (hp : ProgramFrom ast t p) (h : Assembles text ast t) : p.Blank := by
  cases hp with
  | direct => exact translate_blank h.wellFormed h.translates h.resolved
  | loaded _ _ _ loads => exact load_blank loads

/-- An opcode of zeros is `nop`. -/
theorem zero_idle (env : Env W) (tables : ProgramTables) (d : Data W) (l : Locals) :
    tvmMove env tables Opcode.zero.withoutTarget d l = .ok (.next d l) := rfl

/-- Behind the last instruction a program has one `nop` to go. -/
theorem TvmProgram.Blank.idleTail (hb : p.Blank) (hsize : p.size < tvmProgramCapacity) (env : Env W)
    (tables : ProgramTables) : p.toCode.IdleTail (tvmMeaning env tables) fun ip => decide (ip < p.size) := by
  constructor
  · intro ip hip
    exact decide_eq_true (Nat.le_of_lt (of_decide_eq_true hip))
  · intro ip hin hout
    obtain rfl : ip = p.size := Nat.le_antisymm (of_decide_eq_true hin) (Nat.le_of_not_lt (of_decide_eq_false hout))
    have hzero : p.code.get? p.size = some Opcode.zero := (hb p.size (Nat.le_refl _)).trans (CArray.get?_fill _ hsize)
    have hcap : tvmProgramCapacity = 1024 := rfl
    refine ⟨Opcode.zero.withoutTarget, ?_, fun d l => zero_idle env tables d l, decide_eq_false ?_⟩
    · simp only [TvmProgram.toCode, TvmProgram.fetch, CArray.load, hzero]
    · show ¬ wordSucc p.size ≤ p.size
      unfold wordSucc
      omega

/-! ## Runs -/

/-- The tables that the instructions of a source read: its constants, and the functions that the program has for it. -/
def TvmProgram.sourceTables (p : TvmProgram) (ast : TasmAst) : ProgramTables := ⟨p.metadata, constTableOf (constsOf ast.items)⟩

/-- The run of the program from `tvm_init` on comes to what the run of the document comes to. -/
theorem tvmRun_source (h : Assembles text ast t) (hcond : NoCallShadows ast.items) (hp : ProgramFrom ast t p)
    (hsize : instCount ast.items < tvmProgramCapacity) {env : Env W} (hal : env.frames.Roomy) {world : W} {vm : Vm W}
    (hinit : tvmInit env p world = .ok vm) (r : Except RunStop (Data W)) :
    Activation.Comes (fun fuel => (tvmRun env fuel vm).map Vm.data) r ↔
      Activation.Comes (fun fuel => (sourceRun env (p.sourceTables ast) ast.items world fuel).map Data.finish) r := by
  have hcarries := hp.carries h
  have htables : p.tables = p.sourceTables ast := congrArg (ProgramTables.mk p.metadata) (hp.constTable h)
  have hlt : p.size < tvmProgramCapacity := by
    rw [hcarries.size, h.translated.size]
    exact hsize
  have hcorr := code_corresponds h.translated (items_fit h.idNames) hcond hcarries
  have htail := (hp.blank h).idleTail hlt env (p.sourceTables ast)
  have hrun : (fun fuel => (tvmRun env fuel vm).map Vm.data) = fun fuel =>
      ((Activation.run (tvmMeaning env (p.sourceTables ast)) p.toCode fuel
        (Activation.init (tvmMeaning env (p.sourceTables ast)) p.toCode (.initial world))).map (·.data)).map Data.finish := by
    funext fuel
    rw [tvmRun_data hal (tvmInit_represents hinit), htables]
    cases Activation.run (tvmMeaning env (p.sourceTables ast)) p.toCode fuel _ <;> rfl
  rw [hrun, Activation.comes_map, Activation.comes_map]
  refine exists_congr fun r' => and_congr_left' ?_
  rw [← htail.comes_iff]
  have hsame : sourceRun env (p.sourceTables ast) ast.items world = fun fuel =>
      (Activation.run (tvmMeaning env (p.sourceTables ast)) (p.toCode.upTo fun ip => decide (ip < p.size)) fuel
        (Activation.init (tvmMeaning env (p.sourceTables ast)) p.toCode (.initial world))).map (·.data) := by
    funext fuel
    exact (Activation.run_data hcorr fuel (Data.initial world)).symm
  rw [hsame]

/-- The text `call p`, `hlt`, and the proc `p` of `push 42`, `putc`, `ret`. -/
def callPrint : List Byte := cstr "call p\nhlt\nproc p\npush 42\nputc\nret\nendp\n"

def callPrintTokens : List TasmToken :=
  [⟨.op .call, some (cstr "call")⟩, ⟨.id, some (cstr "p")⟩, ⟨.endline, some (cstr "endl")⟩,
    ⟨.op .halt, some (cstr "hlt")⟩, ⟨.endline, some (cstr "endl")⟩,
    ⟨.proc, some (cstr "proc")⟩, ⟨.id, some (cstr "p")⟩, ⟨.endline, some (cstr "endl")⟩,
    ⟨.op .push, some (cstr "push")⟩, ⟨.decimalNumber, some (cstr "42")⟩, ⟨.endline, some (cstr "endl")⟩,
    ⟨.op .putc, some (cstr "putc")⟩, ⟨.endline, some (cstr "endl")⟩,
    ⟨.op .ret, some (cstr "ret")⟩, ⟨.endline, some (cstr "endl")⟩,
    ⟨.endp, some (cstr "endp")⟩, ⟨.endline, some (cstr "endl")⟩]

def callPrintAst : TasmAst :=
  .file [.op .call (some (cstr "call")) (some (.labelCall (some (cstr "p")))), .op .halt (some (cstr "hlt")) none,
    .proc (some (cstr "p"))
      [.op .push (some (cstr "push")) (some (.number (cstr "42") 42)), .op .putc (some (cstr "putc")) none,
        .op .ret (some (cstr "ret")) none]]

theorem callPrint_assembles : ∃ t, Assembles callPrint callPrintAst t :=
  assembles_of_run 30 (show (runOf 30 30 _).map (·.1) = some callPrintTokens by decide +kernel) ⟨_, rfl, rfl⟩ (by decide +kernel)

example : ∃ d, sourceRun (.bare []) ⟨TvmProgram.zero.metadata, .zero⟩ callPrintAst.items () 5 = .ok d ∧ d.out = [42] :=
  ⟨_, rfl, rfl⟩

theorem callPrint_noCallShadows : NoCallShadows callPrintAst.items := by
  rintro x pre c post heq - - ⟨_, hi, o, ho, rfl⟩
  have hmem : Item.inst none o (some (.labelCall (some x))) ∈ callPrintAst.items := by rw [heq]; simp [hi]
  simp [callPrintAst, TasmAst.items, fileItems, lineItem] at hmem
  rw [hmem.1] at ho
  exact absurd ho (by decide)

end TileVm
