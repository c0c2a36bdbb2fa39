/-
The NASM backend: the lines that it writes for each node of the tree. What it prints on the
terminal is left out.
-/
import TileVm.Nasm.Machine

namespace TileVm

/-! ## Text -/

/-- The text of a file, which NASM reads line by line. -/
def Reg.text : Reg → CStr
  | .rax => cstr "rax"
  | .rbx => cstr "rbx"
  | .rcx => cstr "rcx"
  | .rsi => cstr "rsi"
  | .rbp => cstr "rbp"

def NasmMnemonic.text : NasmMnemonic → CStr
  | .nop => cstr "nop"
  | .mov => cstr "mov"
  | .add => cstr "add"
  | .sub => cstr "sub"
  | .xor => cstr "xor"
  | .push => cstr "push"
  | .call => cstr "call"

def NasmOperand.text : NasmOperand → CStr
  | .reg r => r.text
  | .mem b i => cstr "qword [" ++ b.text ++ cstr " + " ++ i.text ++ cstr "]"
  | .number text => text
  | .qword text => cstr "qword " ++ text
  | .symbol name => name

/-- A line, with its tabulator and its end. -/
def NasmLine.bytes : NasmLine → List Byte
  | .text t => t ++ cstr "\n"
  | .inst m [] => cstr "\t" ++ m.text ++ cstr "\n"
  | .inst m operands => cstr "\t" ++ m.text ++ cstr " " ++ (cstr ", ").intercalate (operands.map NasmOperand.text) ++ cstr "\n"
  | .zeros label count =>
    label ++ cstr " db " ++ (Nat.toDigits 10 count).map (fun c => BitVec.ofNat 8 c.toNat) ++ cstr " dup(0)\n"

/-! ## Instructions -/

/-- `mov d, s` and the other instructions with two operands. -/
def NasmLine.two (m : NasmMnemonic) (d s : NasmOperand) : NasmLine := .inst m [d, s]

/-- `qword [rbp + rsi]`. -/
def stackSlot : NasmOperand := .mem .rbp .rsi

/-- `op_file`. -/
def opFile : List NasmLine :=
  [.text (cstr "BITS 64"), .text (cstr "STD_OUTPUT_HANDLE equ -11"), .text [], .text (cstr "extern GetStdHandle"),
    .text (cstr "extern WriteFile"), .text (cstr "extern ExitProcess"), .text [], .text (cstr "section .text"),
    .text (cstr "global _start"), .text [], .text (cstr "_start:"),
    .two .xor (.reg .rsi) (.reg .rsi),
    .two .mov (.reg .rbp) (.symbol (cstr "stack"))]

/-- `op_stack`. -/
def opStack : List NasmLine :=
  [.text [], .text (cstr "section .data"), .text (cstr "stack_top:"), .zeros (cstr "stack") 1024]

/-- `op_nop`. -/
def opNop : List NasmLine := [.text (cstr "\t; nop"), .inst .nop []]

/-- `op_push`. -/
def opPush (operand : CStr) : List NasmLine :=
  [.text (cstr "\t; push " ++ operand),
    .two .mov (.reg .rax) (.number operand),
    .two .mov stackSlot (.reg .rax),
    .two .add (.reg .rsi) (.number (cstr "4")),
    .two .xor (.reg .rax) (.reg .rax)]

/-- `op_pop`. -/
def opPop : List NasmLine :=
  [.text (cstr "\t; pop"),
    .two .sub (.reg .rsi) (.number (cstr "4")),
    .two .mov stackSlot (.reg .rax)]

/-- `op_hlt`. -/
def opHlt : List NasmLine :=
  [.text (cstr "\t; hlt"),
    .inst .push [.qword (cstr "0")],
    .two .xor (.reg .rcx) (.reg .rcx),
    .inst .call [.symbol (cstr "ExitProcess")]]

/-- `op_add`. -/
def opAdd : List NasmLine :=
  [.text (cstr "\t; add"),
    .two .sub (.reg .rsi) (.number (cstr "4")),
    .two .mov (.reg .rbx) stackSlot,
    .two .sub (.reg .rsi) (.number (cstr "4")),
    .two .mov (.reg .rax) stackSlot,
    .two .add (.reg .rax) (.reg .rbx),
    .two .mov stackSlot (.reg .rax),
    .two .add (.reg .rsi) (.number (cstr "4")),
    .two .xor (.reg .rax) (.reg .rax)]

example : (opPush (cstr "-7")).flatMap NasmLine.bytes =
    cstr "\t; push -7\n\tmov rax, -7\n\tmov qword [rbp + rsi], rax\n\tadd rsi, 4\n\txor rax, rax\n" := by decide +kernel

/-! ## The tree -/

/-- Why the backend does not come to its end. -/
inductive NasmStop where
  /-- `assert(false && "unreachable!")` -/
  | unreachable
  /-- an operand or a text that is `NULL` -/
  | nullPointer
  /-- `number.text_value` of a node whose part of the union begins with no text -/
  | notText
deriving DecidableEq, Repr

/-- `number.text_value`, the first pointer of the union, which `character.value` shares; a `%s` prints it up to its NUL. -/
def textValue : TasmAst → Except NasmStop CStr
  | .number text _ => .ok (text.takeWhile (· ≠ 0))
  | .char (some text) => .ok (text.takeWhile (· ≠ 0))
  | .char none => .error .nullPointer
  | _ => .error .notText

/-- The instruction cases of `tasmc_compile_nasm_code`. -/
def tasmcCompileOp (o : OpType) (operand : Option TasmAst) : Except NasmStop (List NasmLine) :=
  match o with
  | .nop => .ok opNop
  | .push =>
    match operand with
    | some node => (textValue node).map opPush
    | none => .error .nullPointer
  | .pop => .ok opPop
  | .add => .ok opAdd
  | .halt => .ok opHlt
  | .band | .bor | .bnot | .lshft | .rshft | .gload | .gstore | .halloc | .deref | .derefb | .hset | .hsetof | .putc =>
    .error .unreachable
  | _ => .ok []

mutual

/-- `tasmc_compile_nasm_code`. -/
def tasmcCompileNasmCode : TasmAst → Except NasmStop (List NasmLine)
  | .none => .error .unreachable
  | .file lines => do
    let code ← compileNasmLines lines
    return opFile ++ code
  | .op o _ operand => tasmcCompileOp o operand
  | .proc _ lines => compileNasmLines lines
  | .data (some value) => tasmcCompileNasmCode value
  | _ => .ok []

def compileNasmLines : List TasmAst → Except NasmStop (List NasmLine)
  | [] => .ok []
  | l :: lines => do
    let code ← tasmcCompileNasmCode l
    let rest ← compileNasmLines lines
    return code ++ rest

end

/-- `tasmc_compile_nasm`. -/
def tasmcCompileNasm (ast : TasmAst) : Except NasmStop (List NasmLine) := do
  let code ← tasmcCompileNasmCode ast
  return code ++ opStack

end TileVm
