/-
Sources made of nop, push, pop, add and a final hlt: the file that the backend writes for them,
and the code that NASM makes of it when it reads all their literals.
-/
import TileVm.Nasm.Simulation

namespace TileVm

/-! ## Sources -/

/-- The operand of a `push`. -/
inductive Literal where
  | number (text : CStr) (value : BitVec 32)
  | char (text : CStr)
deriving DecidableEq, Repr

namespace Literal

/-- Its node. -/
def node : Literal → TasmAst
  | .number text value => .number text value
  | .char text => .char (some text)

/-- The word that the machine pushes. -/
def value : Literal → BitVec 32
  | .number _ value => value
  | .char text => (text.getD 0 0).signExtend 32

/-- The text that the backend prints. -/
def printed : Literal → CStr
  | .number text _ | .char text => text.takeWhile (· ≠ 0)

theorem textValue_node (l : Literal) : textValue l.node = .ok l.printed := by
  cases l <;> rfl

end Literal

/-- The line of an instruction. -/
inductive StackLine : TasmAst → StackOp Literal → Prop
  | nop (name : Option CStr) : StackLine (.op .nop name none) .nop
  | push (name : Option CStr) (l : Literal) : StackLine (.op .push name (some l.node)) (.push l)
  | pop (name : Option CStr) : StackLine (.op .pop name none) .pop
  | add (name : Option CStr) : StackLine (.op .add name none) .add

/-- A source of such lines, with `hlt` behind them. -/
def StackProgram (ast : TasmAst) (ops : List (StackOp Literal)) : Prop :=
  ∃ lines name, ast = .file (lines ++ [.op .halt name none]) ∧ List.Forall₂ StackLine lines ops

/-! ## The file -/

/-- The lines of an instruction. -/
def linesOf : StackOp Literal → List NasmLine
  | .nop => opNop
  | .push l => opPush l.printed
  | .pop => opPop
  | .add => opAdd

/-- The file of a source. -/
def fileOf (ops : List (StackOp Literal)) : List NasmLine := opFile ++ (ops.flatMap linesOf ++ opHlt) ++ opStack

theorem StackLine.compile {node : TasmAst} {op : StackOp Literal} (h : StackLine node op) :
    tasmcCompileNasmCode node = .ok (linesOf op) := by
  cases h with
  | nop | pop | add => simp only [tasmcCompileNasmCode, tasmcCompileOp, linesOf]
  | push name l =>
    simp only [tasmcCompileNasmCode, tasmcCompileOp, Literal.textValue_node]
    rfl

theorem compileNasmLines_append {lines rest : List TasmAst} {ops : List (StackOp Literal)} {code : List NasmLine}
    (h : List.Forall₂ StackLine lines ops) (hrest : compileNasmLines rest = .ok code) :
    compileNasmLines (lines ++ rest) = .ok (ops.flatMap linesOf ++ code) := by
  induction h with
  | nil => exact hrest
  | @cons l op lines ops hl _ ih =>
    rw [List.cons_append, compileNasmLines, hl.compile, ih, List.flatMap_cons, List.append_assoc]
    rfl

theorem StackProgram.compile {ast : TasmAst} {ops : List (StackOp Literal)} (h : StackProgram ast ops) :
    tasmcCompileNasm ast = .ok (fileOf ops) := by
  obtain ⟨lines, name, rfl, hlines⟩ := h
  have hhalt : compileNasmLines [.op .halt name none] = .ok opHlt := by
    simp only [compileNasmLines, tasmcCompileNasmCode, tasmcCompileOp]
    rfl
  rw [tasmcCompileNasm, tasmcCompileNasmCode, compileNasmLines_append hlines hhalt]
  rfl

/-- The section behind the label `stack`. -/
theorem reserved_fileOf (ops : List (StackOp Literal)) : reserved (cstr "stack") (fileOf ops) = 1024 := by
  have skip (a b : List NasmLine) (h : ∀ l ∈ a, ∀ label n, l ≠ .zeros label n) :
      reserved (cstr "stack") (a ++ b) = reserved (cstr "stack") b := by
    induction a with
    | nil => rfl
    | cons l a ih =>
      have ih := ih fun l' hl' => h l' (List.mem_cons_of_mem l hl')
      cases l with
      | zeros label n => exact absurd rfl (h _ (List.mem_cons_self ..) label n)
      | text | inst => exact ih
  have hops : ∀ l ∈ opFile ++ (ops.flatMap linesOf ++ opHlt), ∀ label n, l ≠ .zeros label n := by
    intro l hl
    rw [List.mem_append, List.mem_append, List.mem_flatMap] at hl
    rcases hl with hl | ⟨op, -, hl⟩ | hl
    · rintro label n rfl
      exact absurd hl (by simp [opFile, NasmLine.two])
    · rintro label n rfl
      cases op <;> exact absurd hl (by simp [linesOf, opNop, opPush, opPop, opAdd, NasmLine.two])
    · rintro label n rfl
      exact absurd hl (by simp [opHlt, NasmLine.two])
  rw [fileOf, skip _ _ hops]
  rfl

/-! ## Its code -/

namespace Nasm

variable (nasm : Nasm) (stack : Addr)

/-- The number that a literal is read as. -/
def reading (l : Literal) : BitVec 64 := (nasm.number l.printed).getD 0

/-- Every pushed literal is read as a number. -/
def Reads (ops : List (StackOp Literal)) : Prop := ∀ l, .push l ∈ ops → (nasm.number l.printed).isSome = true

/-- The instructions with the numbers that their literals are read as. -/
def readings (ops : List (StackOp Literal)) : List (StackOp (BitVec 64)) := ops.map (StackOp.map nasm.reading)

variable {nasm stack}

theorem assemble_append (a b : List NasmLine) :
    nasm.assemble stack (a ++ b) = (nasm.assemble stack a).bind fun c => (nasm.assemble stack b).map (c ++ ·) := by
  induction a with
  | nil =>
    rw [List.nil_append, assemble, Option.bind_some]
    cases nasm.assemble stack b <;> rfl
  | cons l a ih =>
    rw [List.cons_append, assemble, assemble, ih]
    cases nasm.line stack l with
    | none => rfl
    | some c =>
      cases nasm.assemble stack a with
      | none => rfl
      | some d =>
        cases nasm.assemble stack b with
        | none => rfl
        | some e => exact congrArg some (List.append_assoc c d e).symm

theorem assemble_append_of {a b : List NasmLine} {c : List X86Inst} (ha : nasm.assemble stack a = some c) :
    nasm.assemble stack (a ++ b) = (nasm.assemble stack b).map (c ++ ·) := by
  rw [assemble_append, ha, Option.bind_some]

/-- The digits that the backend writes itself. -/
theorem number_four : nasm.number (cstr "4") = some 4 := nasm.decimal _ (by decide)

theorem number_zero : nasm.number (cstr "0") = some 0 := nasm.decimal _ (by decide)

theorem assemble_linesOf (op : StackOp Literal) (hread : nasm.Reads [op]) :
    nasm.assemble stack (linesOf op) = some (codeOf (op.map nasm.reading)) := by
  cases op with
  | nop => rfl
  | push l =>
    obtain ⟨v, hv⟩ := Option.isSome_iff_exists.1 (hread l (List.mem_singleton_self _))
    have hreading : nasm.reading l = v := by rw [reading, hv, Option.getD_some]
    simp [linesOf, opPush, NasmLine.two, stackSlot, assemble, line, inst, operand, number_four, hv, hreading, StackOp.map, codeOf]
  | pop => simp [linesOf, opPop, NasmLine.two, stackSlot, assemble, line, inst, operand, number_four, StackOp.map, codeOf]
  | add => simp [linesOf, opAdd, NasmLine.two, stackSlot, assemble, line, inst, operand, number_four, StackOp.map, codeOf]

/-- A literal that is no number stops NASM. -/
theorem assemble_push_none {l : Literal} (h : nasm.number l.printed = none) :
    nasm.assemble stack (linesOf (.push l)) = none := by
  simp [linesOf, opPush, NasmLine.two, assemble, line, inst, operand, h]

theorem assemble_flatMap {ops : List (StackOp Literal)} (h : nasm.Reads ops) :
    nasm.assemble stack (ops.flatMap linesOf) = some ((nasm.readings ops).flatMap codeOf) := by
  induction ops with
  | nil => rfl
  | cons op ops ih =>
    have hop : nasm.Reads [op] := fun l hl => h l (List.mem_singleton.1 hl ▸ List.mem_cons_self ..)
    rw [List.flatMap_cons, assemble_append_of (assemble_linesOf op hop), ih fun l hl => h l (List.mem_cons_of_mem op hl)]
    rfl

/-- NASM accepts the file exactly when it reads every literal. -/
theorem assemble_fileOf {ops : List (StackOp Literal)} {code : List X86Inst} :
    nasm.assemble stack (fileOf ops) = some code ↔
      nasm.Reads ops ∧ code = prologue stack ++ ((nasm.readings ops).flatMap codeOf ++ epilogue) := by
  have hstart : nasm.assemble stack opFile = some (prologue stack) := by
    simp [opFile, NasmLine.two, assemble, line, inst, operand, prologue]
  have hend : nasm.assemble stack opHlt = some epilogue := by
    simp [opHlt, NasmLine.two, assemble, line, inst, operand, number_zero, epilogue]
  have hdata : nasm.assemble stack opStack = some [] := rfl
  have hfile : nasm.assemble stack (fileOf ops) =
      (nasm.assemble stack (ops.flatMap linesOf)).map fun c => prologue stack ++ (c ++ epilogue) := by
    rw [fileOf, assemble_append, assemble_append_of hstart, assemble_append, hend, hdata]
    cases nasm.assemble stack (ops.flatMap linesOf) with
    | none => rfl
    | some c => simp
  rw [hfile]
  constructor
  · intro h
    have hreads : nasm.Reads ops := by
      intro l hl
      by_contra hnone
      rw [Bool.not_eq_true, Option.isSome_eq_false_iff, Option.isNone_iff_eq_none] at hnone
      obtain ⟨before, behind, rfl⟩ := List.append_of_mem hl
      rw [List.flatMap_append, List.flatMap_cons, assemble_append, assemble_append, assemble_push_none hnone] at h
      cases hbefore : nasm.assemble stack (before.flatMap linesOf) <;> rw [hbefore] at h <;> cases h
    rw [assemble_flatMap hreads] at h
    exact ⟨hreads, (Option.some.inj h).symm⟩
  · rintro ⟨hreads, rfl⟩
    rw [assemble_flatMap hreads]
    rfl

end Nasm

end TileVm
