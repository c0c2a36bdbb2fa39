/-
The three passes together: on every file that the parser accepts and the translator finishes, the
addresses that the first two passes count are the positions at which the third one emits.
-/
import TileVm.Tasm.ParserProgress
import TileVm.Tasm.TranslatorSpec

namespace TileVm

/-- The state that the translator leaves on a file without an error. -/
structure Translated (ast : TasmAst) (t : TasmTranslator) : Prop where
  procDecls : t.symbols.procDecls = declared Item.procName? 0 ast.items
  labelDecls : t.symbols.labelDecls = declared Item.labelName? 0 ast.items
  labelCalls : t.symbols.labelCalls = callLog t.symbols ast.items
  procAddressPointer : t.symbols.procAddressPointer = instCount ast.items
  labelAddressPointer : t.symbols.labelAddressPointer = instCount ast.items
  size : t.program.size = instCount ast.items
  fits : instCount ast.items ≤ tvmProgramCapacity
  procsNodup : (t.symbols.procDecls.map (·.name)).Nodup
  labelsNodup : (t.symbols.labelDecls.map (·.name)).Nodup
  procNamed : ∀ name, .proc name ∈ ast.items → name.isSome = true
  labelNamed : ∀ scope name, .label scope name ∈ ast.items → name.isSome = true
  resolved : ∀ i ∈ ast.items, Resolved t.symbols i
  code : ∀ pre scope o operand post, ast.items = pre ++ .inst scope o operand :: post →
    t.program.code.get? (instCount pre) =
      some (opcodeOf t.symbols (callLog t.symbols (pre ++ [.inst scope o operand])) scope o operand)

section

variable {N : Option CStr → Prop}

theorem translated {ast : TasmAst} {t : TasmTranslator} (hast : WellFormed N ast) (h : tasmTranslate ast = .ok t)
    (herr : t.symbols.err = false) : Translated ast t := by
  unfold tasmTranslate at h
  obtain ⟨t₁, h₁, h⟩ := Except.bind_ok h
  obtain ⟨t₂, h₂, h₃⟩ := Except.bind_ok h
  rw [resolveProcs_eq hast] at h₁
  rw [resolveLabels_eq hast] at h₂
  rw [translateUnit_eq hast] at h₃
  obtain ⟨rfl, hprocs, hprocNamed⟩ := procs_resolved rfl rfl h₁
  obtain ⟨rfl, hlabels, hlabelNamed⟩ := labels_resolved rfl rfl h₂
  have he := unit_emitted (items_fit hast) rfl rfl h₃ herr
  have hs := he.symbols
  exact {
    procDecls := by rw [hs]
    labelDecls := by rw [hs]
    labelCalls := by rw [hs]; rfl
    procAddressPointer := by rw [hs]
    labelAddressPointer := by rw [hs]
    size := he.size
    fits := he.fits
    procsNodup := by rw [hs]; exact hprocs
    labelsNodup := by rw [hs]; exact hlabels
    procNamed := fun name hi => hprocNamed _ hi name rfl
    labelNamed := fun scope name hi => hlabelNamed _ hi scope name rfl
    resolved := fun i hi => by rw [hs]; exact he.resolved i hi
    code := fun pre scope o operand post heq => by
      rw [he.code pre scope o operand post heq, hs]
      rfl }

end

/-! ## One opcode for each instruction -/

/-- The opcode has the mnemonic of the node, and the value of its number or character operand. -/
def CarriesNode (o : OpType) (operand : Option TasmAst) (c : Opcode) : Prop :=
  c.type = o.code ∧
    match operand with
    | some (.number _ v) => c.operand.ui32 = v
    | some (.char (some s)) => c.operand.ui32 = (s.getD 0 0).signExtend 32
    | _ => True

theorem Opcode.withUi32_ui32 (o : OpType) (type : StackObjType) (v : BitVec 32) :
    (Opcode.withUi32 o type v).operand.ui32 = v := by
  simp [Opcode.withUi32, ObjectT.ui32]

theorem opcodeOf_carries (s : SymbolTable) (log : List Symbol) (scope : Option CStr) (o : OpType)
    (operand : Option TasmAst) : CarriesNode o operand (opcodeOf s log scope o operand) := by
  unfold opcodeOf
  split
  · exact ⟨rfl, Opcode.withUi32_ui32 _ _ _⟩
  · exact ⟨rfl, Opcode.withUi32_ui32 _ _ _⟩
  · exact ⟨rfl, trivial⟩
  · rename_i hnumber hchar hlabel
    refine ⟨rfl, ?_⟩
    split
    · exact absurd rfl (hnumber _ _)
    · exact absurd rfl (hchar _)
    · trivial

/-- The passes count alike: the recorded address of a label or proc is the number of opcodes emitted
before it, and every instruction is one opcode, in document order. -/
structure PassesAgree (ast : TasmAst) (t : TasmTranslator) : Prop where
  procAddressPointer : t.symbols.procAddressPointer = instCount ast.items
  labelAddressPointer : t.symbols.labelAddressPointer = instCount ast.items
  size : t.program.size = instCount ast.items
  labels : ∀ pre scope name post, ast.items = pre ++ .label scope name :: post →
    ∃ n, name = some n ∧
      t.symbols.labelDecls[(pre.filterMap Item.labelName?).length]? = some ⟨instCount pre, labelName scope n⟩
  procs : ∀ pre name post, ast.items = pre ++ .proc name :: post →
    ∃ n, name = some n ∧ t.symbols.procDecls[(pre.filterMap Item.procName?).length]? = some ⟨instCount pre, n⟩
  code : ∀ pre scope o operand post, ast.items = pre ++ .inst scope o operand :: post →
    ∃ c, t.program.code.get? (instCount pre) = some c ∧ CarriesNode o operand c

/-- The two counting passes and the emission pass agree on every file that the parser accepts. -/
theorem translate_agrees {fuel : Nat} {ts : List TasmToken} {ast : TasmAst} {p : TasmParser} {t : TasmTranslator}
    (hparse : tasmParseFile fuel (tasmParserInit ts) = .ok (ast, p)) (hp : p.isErr = false)
    (htr : tasmTranslate ast = .ok t) (ht : t.symbols.err = false) : PassesAgree ast t := by
  have h := translated (wellFormed_of_parse (anyName_ids _) hparse hp) htr ht
  refine ⟨h.procAddressPointer, h.labelAddressPointer, h.size, ?_, ?_, ?_⟩
  · intro pre scope name post heq
    obtain ⟨n, rfl⟩ := Option.isSome_iff_exists.mp (h.labelNamed scope name (by simp [heq]))
    refine ⟨n, rfl, ?_⟩
    rw [h.labelDecls, heq]
    exact declared_getElem? Item.labelName? rfl
  · intro pre name post heq
    obtain ⟨n, rfl⟩ := Option.isSome_iff_exists.mp (h.procNamed name (by simp [heq]))
    refine ⟨n, rfl, ?_⟩
    rw [h.procDecls, heq]
    exact declared_getElem? Item.procName? rfl
  · intro pre scope o operand post heq
    exact ⟨_, h.code pre scope o operand post heq, opcodeOf_carries _ _ _ _ _⟩

/-- The tokens of the text `call p\nx:\nhlt\nproc p\ny:\npush 42\njmp y\nret\nendp\n`. -/
def labelsAndProcTokens : List TasmToken :=
  let endl := ⟨.endline, some (cstr "endl")⟩
  let colon := ⟨.colon, some (cstr ":")⟩
  [⟨.op .call, some (cstr "call")⟩, ⟨.id, some (cstr "p")⟩, endl, ⟨.id, some (cstr "x")⟩, colon, endl,
    ⟨.op .halt, some (cstr "hlt")⟩, endl, ⟨.proc, some (cstr "proc")⟩, ⟨.id, some (cstr "p")⟩, endl,
    ⟨.id, some (cstr "y")⟩, colon, endl, ⟨.op .push, some (cstr "push")⟩, ⟨.decimalNumber, some (cstr "42")⟩, endl,
    ⟨.op .jmp, some (cstr "jmp")⟩, ⟨.id, some (cstr "y")⟩, endl, ⟨.op .ret, some (cstr "ret")⟩, endl,
    ⟨.endp, some (cstr "endp")⟩, endl]

def labelsAndProcAst : TasmAst :=
  .file [.op .call (some (cstr "call")) (some (.labelCall (some (cstr "p")))), .labelDecl (some (cstr "x")),
    .op .halt (some (cstr "hlt")) none,
    .proc (some (cstr "p"))
      [.labelDecl (some (cstr "y")), .op .push (some (cstr "push")) (some (.number (cstr "42") 42)),
        .op .jmp (some (cstr "jmp")) (some (.labelCall (some (cstr "y")))), .op .ret (some (cstr "ret")) none]]

/-- The proc `p` and its label `y` are at 2, behind the two instructions of the file. -/
theorem translate_agrees_proc : ∃ p t, tasmParseFile 30 (tasmParserInit labelsAndProcTokens) = .ok (labelsAndProcAst, p) ∧
    tasmTranslate labelsAndProcAst = .ok t ∧ PassesAgree labelsAndProcAst t ∧ t.program.size = 5 ∧
    t.symbols.procDecls[0]? = some ⟨2, cstr "p"⟩ ∧ t.symbols.labelDecls[1]? = some ⟨2, labelName (some (cstr "p")) (cstr "y")⟩ := by
  obtain ⟨p, hparse, hp⟩ : ∃ p, tasmParseFile 30 (tasmParserInit labelsAndProcTokens) = .ok (labelsAndProcAst, p) ∧
      p.isErr = false := ⟨_, rfl, rfl⟩
  obtain ⟨t, htr, ht⟩ : ∃ t, tasmTranslate labelsAndProcAst = .ok t ∧ (!t.symbols.err) = true :=
    Except.okAnd_eq_true (by decide +kernel)
  have hagree := translate_agrees hparse hp htr (by simpa using ht)
  obtain ⟨_, hname, hproc⟩ := hagree.procs (labelsAndProcAst.items.take 3) _ _ rfl
  cases hname
  obtain ⟨_, hname, hlabel⟩ := hagree.labels (labelsAndProcAst.items.take 4) _ _ _ rfl
  cases hname
  exact ⟨p, t, hparse, htr, hagree, hagree.size, hproc, hlabel⟩

end TileVm
