/-
The translator: one pass over the tree for the addresses of the procs, one for those of the labels,
and one that emits the opcodes and logs every resolved name. The symbol tables are lists with the
capacity of the arrays; `exit(1)` and faults end the process.
-/
import TileVm.Tasm.Ast
import TileVm.Vm.State

namespace TileVm

def symbolLabelCallCapacity : Nat := 512
def symbolLabelDeclCapacity : Nat := 512
def symbolProcDeclCapacity : Nat := 512

/-! ## State -/

/-- An entry of a symbol table. -/
structure Symbol where
  addr : Nat
  name : CStr
deriving DecidableEq, Repr

/-- `symbol_table_t`; the sizes are the lengths of the lists. -/
structure SymbolTable where
  labelDecls : List Symbol
  labelAddressPointer : Nat
  labelCalls : List Symbol
  procDecls : List Symbol
  procAddressPointer : Nat
  err : Bool

/-- What the translator prints as an error. -/
inductive TranslatorReport where
  | duplicatedLabel (name : CStr)
  | duplicatedProc (name : CStr)
  | unresolvedSymbol (name : CStr)
  | procInProc
deriving DecidableEq, Repr

/-- The text of the report, without its colours and location. -/
def TranslatorReport.text : TranslatorReport → CStr
  | .duplicatedLabel name => cstr "Duplicated label decleration: " ++ name
  | .duplicatedProc name => cstr "Duplicated proc decleration: " ++ name
  | .unresolvedSymbol name => cstr "Unresolved symbol: " ++ name
  | .procInProc => cstr "It is not possible to create proc inside another proc!"

/-- `tasm_translator_t`, with the `static` counter of `tasm_translate_data` and the errors printed. -/
structure TasmTranslator where
  symbols : SymbolTable
  program : TvmProgram
  beginningAddress : Nat
  reports : List TranslatorReport

/-- Why a pass does not return: `exit(1)` after a report, or a fault. -/
inductive TrStop where
  | exit (report : TranslatorReport)
  | fault (e : Fault)
deriving DecidableEq, Repr

/-- The result of a pass. -/
abbrev Tr (α : Type) := Except TrStop α

/-- `tasm_translator_init`, in a new process. -/
def tasmTranslatorInit : TasmTranslator where
  symbols := ⟨[], 0, [], [], 0, false⟩
  program := TvmProgram.zero
  beginningAddress := 0
  reports := []

/-- A pointer that the code follows unchecked. -/
def nonNull {α : Type} : Option α → Tr α
  | some a => .ok a
  | none => .error (.fault .nullPointer)

/-- `table[size++] = symbol`. -/
def pushSymbol (array : ArrayName) (capacity : Nat) (table : List Symbol) (s : Symbol) : Tr (List Symbol) :=
  if table.length < capacity then .ok (table ++ [s]) else .error (.fault (.outOfBounds array))

/-- `get_addr_from_label_decl_symbol`, `get_addr_from_label_call_symbol` and
`get_addr_from_proc_decl_symbol`, on their tables: the first entry with the name, or `(size_t)-1`. -/
def getAddr (table : List Symbol) (name : CStr) : Nat :=
  match table.find? (·.name == name) with
  | some s => s.addr
  | none => 2 ^ 64 - 1

/-- `int addr = get_addr_from_..(translator, name)`. -/
def intAddr (table : List Symbol) (name : CStr) : BitVec 32 := .ofNat 32 (getAddr table name)

/-- The name of a label of a proc: `strcpy(name, prefix); strcat(name, "$"); strcat(name, label)`. -/
def labelName (pfx : Option CStr) (label : CStr) : CStr :=
  match pfx with
  | some p => p ++ cstr "$" ++ label
  | none => label

/-! ## Procs and labels -/

/-- The `AST_PROC` case of `tasm_resolve_procs`, before its lines. -/
def declareProc (t : TasmTranslator) (name : Option CStr) : Tr TasmTranslator := do
  let name ← nonNull name
  if t.symbols.procDecls.any (·.name == name) then .error (.exit (.duplicatedProc name))
  else do
    let procDecls ← pushSymbol .procDecls symbolProcDeclCapacity t.symbols.procDecls
      ⟨t.symbols.procAddressPointer, name⟩
    return { t with symbols := { t.symbols with procDecls } }

mutual

/-- `tasm_resolve_procs`. -/
def tasmResolveProcs (t : TasmTranslator) : TasmAst → Tr TasmTranslator
  | .file lines => resolveProcsLines t lines
  | .op _ _ _ =>
    .ok { t with symbols := { t.symbols with procAddressPointer := t.symbols.procAddressPointer + 1 } }
  | .proc name lines => do
    let t ← declareProc t name
    resolveProcsLines t lines
  | _ => .ok t

def resolveProcsLines (t : TasmTranslator) : List TasmAst → Tr TasmTranslator
  | [] => .ok t
  | line :: lines => do
    let t ← tasmResolveProcs t line
    resolveProcsLines t lines

end

/-- The `AST_LABEL_DECL` case of `tasm_resolve_labels`. -/
def declareLabel (t : TasmTranslator) (pfx label : Option CStr) : Tr TasmTranslator := do
  let label ← nonNull label
  let name := labelName pfx label
  if t.symbols.labelDecls.any (·.name == name) then .error (.exit (.duplicatedLabel name))
  else do
    let labelDecls ← pushSymbol .labelDecls symbolLabelDeclCapacity t.symbols.labelDecls
      ⟨t.symbols.labelAddressPointer, name⟩
    return { t with symbols := { t.symbols with labelDecls } }

mutual

/-- `tasm_resolve_labels`. -/
def tasmResolveLabels (t : TasmTranslator) (pfx : Option CStr) : TasmAst → Tr TasmTranslator
  | .file lines => resolveLabelsLines t none lines
  | .op _ _ _ =>
    .ok { t with symbols := { t.symbols with labelAddressPointer := t.symbols.labelAddressPointer + 1 } }
  | .labelDecl label => declareLabel t pfx label
  | .proc name lines => resolveLabelsLines t name lines
  | _ => .ok t

def resolveLabelsLines (t : TasmTranslator) (pfx : Option CStr) : List TasmAst → Tr TasmTranslator
  | [] => .ok t
  | line :: lines => do
    let t ← tasmResolveLabels t pfx line
    resolveLabelsLines t pfx lines

end

/-! ## Emission -/

/-- `(opcode_t){.type = ..}`. -/
def Opcode.plain (o : OpType) : Opcode := ⟨o.code, ObjectT.zero⟩

/-- `(opcode_t){.operand.type = .., .operand.ui32 = .., .type = ..}`. -/
def Opcode.withUi32 (o : OpType) (type : StackObjType) (v : BitVec 32) : Opcode :=
  ⟨o.code, ⟨type.code, v.setWidth 64⟩⟩

/-- `program_push`. -/
def programPush (t : TasmTranslator) (code : Opcode) : Tr TasmTranslator :=
  match t.program.code.store (Fault.outOfBounds .code) t.program.size code with
  | .ok cells => .ok { t with program := { t.program with code := cells, size := t.program.size + 1 } }
  | .error e => .error (.fault e)

/-- The cases with a number operand; any other operand emits nothing. -/
def pushNumber (t : TasmTranslator) (o : OpType) (type : StackObjType) (operand : Option TasmAst) :
    Tr TasmTranslator := do
  match ← nonNull operand with
  | .number _ v => programPush t (.withUi32 o type v)
  | _ => return t

/-- The first character of a text, its NUL if it is empty. -/
def firstChar (value : Option CStr) : Tr Byte := do
  let value ← nonNull value
  return value.getD 0 0

/-- The `AST_OP_PUSH` case. The conversion of the `char` to `uint32_t` extends its sign. -/
def translatePush (t : TasmTranslator) (operand : Option TasmAst) : Tr TasmTranslator := do
  match ← nonNull operand with
  | .number _ v => programPush t (.withUi32 .push .number v)
  | .char value => do
    let c ← firstChar value
    programPush t (.withUi32 .push .character (c.signExtend 32))
  | _ => return t

/-- The `AST_LABEL_CALL` case: the address is looked up in the declarations and logged in
`label_calls`. Returns the name under which it is logged, which replaces that of the node. -/
def translateLabelCall (t : TasmTranslator) (pfx : Option CStr) (isCall : Bool) (label : Option CStr) :
    Tr (TasmTranslator × CStr) := do
  let label ← nonNull label
  let name := labelName pfx label
  let addr :=
    if pfx.isNone && isCall then intAddr t.symbols.procDecls name else intAddr t.symbols.labelDecls name
  if addr = -1 then
    return ({ t with symbols := { t.symbols with err := true }
                     reports := t.reports ++ [.unresolvedSymbol name] }, name)
  else do
    let labelCalls ← pushSymbol .labelCalls symbolLabelCallCapacity t.symbols.labelCalls
      ⟨(addr.signExtend 64).toNat, name⟩
    return ({ t with symbols := { t.symbols with labelCalls } }, name)

/-- The `AST_OP_JMP`, `AST_OP_JZ` and `AST_OP_JNZ` cases. A label operand is logged first, and its
address then read back from the log. -/
def translateJump (t : TasmTranslator) (o : OpType) (pfx : Option CStr) (operand : Option TasmAst) :
    Tr TasmTranslator := do
  match ← nonNull operand with
  | .number _ v => programPush t (.withUi32 o .vmAddress v)
  | .labelCall label => do
    let (t, name) ← translateLabelCall t pfx false label
    let addr := intAddr t.symbols.labelCalls name
    if addr = -1 then return t
    else programPush t (.withUi32 o .vmAddress addr)
  | _ => return t

/-- The `AST_OP_CALL` case. -/
def translateCall (t : TasmTranslator) (operand : Option TasmAst) : Tr TasmTranslator := do
  match ← nonNull operand with
  | .labelCall label => do
    let (t, name) ← translateLabelCall t none true label
    let addr := intAddr t.symbols.procDecls name
    if addr = -1 then return t
    else programPush t (.withUi32 .call .vmAddress addr)
  | _ => return t

/-! ## Metadata -/

/-- `tasm_translate_cfunction`: every function goes to the first module. -/
def tasmTranslateCfunction (t : TasmTranslator) (rtype : Byte) (atypes : List Byte) (name : Option CStr) :
    Tr TasmTranslator :=
  let cfun : TvmProgramCfun := ⟨rtype, atypes, atypes.length % 2 ^ 16, name⟩
  let cells := do
    let m ← t.program.metadata.modules.load (Fault.outOfBounds .modules) 0
    let cfuns ← m.cfuns.store (.outOfBounds .cfuns) m.cfunCount cfun
    t.program.metadata.modules.store (.outOfBounds .modules) 0 { m with cfuns, cfunCount := m.cfunCount + 1 }
  match cells with
  | .ok modules =>
    .ok { t with program := { t.program with metadata := { t.program.metadata with modules } } }
  | .error e => .error (.fault e)

/-- The bytes of a `uint32_t` in memory. -/
def ui32Bytes (v : BitVec 32) : List Byte := (List.range 4).map fun i => v.extractLsb' (8 * i) 8

/-- The bytes that `tasm_translate_data` appends for a value, `none` where it appends nothing. -/
def dataBytes : TasmAst → Tr (Option (List Byte))
  | .string value length => .ok (some (value.take length))
  | .number _ v => .ok (some (ui32Bytes v))
  | .char value => do
    let c ← firstChar value
    return some [c]
  | _ => .ok none

/-- `tasm_translate_data`. -/
def tasmTranslateData (t : TasmTranslator) (value : Option TasmAst) : Tr TasmTranslator := do
  let value ← nonNull value
  let bytes ← dataBytes value
  let table := t.program.constTable
  let (table, beginning) := match bytes with
    | some b =>
      ({ table with referances := table.referances ++ [t.beginningAddress], data := table.data ++ b },
        t.beginningAddress + b.length)
    | none => (table, t.beginningAddress)
  let table := { table with referanceCount := table.referanceCount + 1, dataSize := beginning }
  return { t with program := { t.program with constTable := table }, beginningAddress := beginning }

/-! ## Lines and units -/

/-- `tasm_translate_line`. -/
def tasmTranslateLine (t : TasmTranslator) (pfx : Option CStr) (isCall : Bool) : TasmAst → Tr TasmTranslator
  | .op .push _ operand => translatePush t operand
  | .op .cln _ operand => pushNumber t .cln .vmAddress operand
  | .op .swap _ operand => pushNumber t .swap .vmAddress operand
  | .op .jmp _ operand => translateJump t .jmp pfx operand
  | .op .jz _ operand => translateJump t .jz pfx operand
  | .op .jnz _ operand => translateJump t .jnz pfx operand
  | .op .call _ operand => translateCall t operand
  | .op .loadc _ operand => pushNumber t .loadc .number operand
  | .op .aloadc _ operand => pushNumber t .aloadc .dataAddress operand
  | .op .load _ operand => pushNumber t .load .number operand
  | .op .store _ operand => pushNumber t .store .number operand
  | .op .gload _ operand => pushNumber t .gload .number operand
  | .op .gstore _ operand => pushNumber t .gstore .number operand
  | .op .derefb _ operand => pushNumber t .derefb .number operand
  | .op .native _ operand => pushNumber t .native .number operand
  | .op o _ _ => programPush t (.plain o)
  | .labelCall label => (translateLabelCall t pfx isCall label).map (·.1)
  | .proc _ _ => .ok { t with reports := t.reports ++ [.procInProc] }
  | .cfunction rtype atypes _ name => tasmTranslateCfunction t rtype atypes name
  | .data value => tasmTranslateData t value
  | _ => .ok t

/-- `tasm_translate_proc`: its lines, with the proc's name as prefix. -/
def tasmTranslateProc (t : TasmTranslator) : TasmAst → Tr TasmTranslator
  | .proc name lines => lines.foldlM (fun t line => tasmTranslateLine t name false line) t
  | _ => .ok t

/-- `tasm_translate_proc_and_line`. -/
def tasmTranslateProcAndLine (t : TasmTranslator) (node : TasmAst) : Tr TasmTranslator :=
  match node with
  | .proc _ _ => tasmTranslateProc t node
  | _ => tasmTranslateLine t none false node

/-- `tasm_translate_unit`. -/
def tasmTranslateUnit (t : TasmTranslator) : TasmAst → Tr TasmTranslator
  | .file lines => lines.foldlM tasmTranslateProcAndLine t
  | _ => .ok t

/-- The three passes of `main`, in a new process. -/
def tasmTranslate (ast : TasmAst) : Tr TasmTranslator := do
  let t ← tasmResolveProcs tasmTranslatorInit ast
  let t ← tasmResolveLabels t none ast
  tasmTranslateUnit t ast

end TileVm
