/-
Tokens of the assembler. The enumeration keeps its four sentinels, which no token of the lexer
has; the kinds between them are the C types and the mnemonics in their shared orders.
-/
import TileVm.Vm.Program

namespace TileVm

/-- `token_type_t`. -/
inductive TokenType where
  | none | id | proc | endp | colon | apost | quota | atSign | minus | cfunction | cstruct | data
  | tciBegin
  | tci (t : CType)
  | tciEnd
  | instructionsTokenBegin
  | op (o : OpType)
  | instructionsTokenEnd
  | string | char | decimalNumber | floatNumber | hexNumber | binaryNumber | comment | endline | eof
deriving DecidableEq, Repr

/-- `tasm_token_t`. The value is the text copied into the arena, `none` for `NULL`. -/
structure TasmToken where
  type : TokenType
  value : Option CStr
deriving DecidableEq, Repr

/-- The token that the lexer returns at the end of the text, and from then on. -/
def TasmToken.eof : TasmToken := ⟨.eof, some (cstr "eof")⟩

/-! ## Reserved words -/

/-- `_inst_strings_lower`. -/
def instStringsLower : List CStr :=
  ["nop", "push", "pop", "add", "sub", "mult", "div", "mod", "dup", "cln", "swap", "addf", "subf", "multf", "divf",
   "inc", "incf", "dec", "decf", "jmp", "jz", "jnz", "call", "ret", "ci2f", "ci2u", "cf2i", "cf2u", "cu2i", "cu2f",
   "gt", "gtf", "lt", "ltf", "eq", "eqf", "ge", "gef", "le", "lef", "and", "or", "not",
   "band", "bor", "bnot", "lshft", "rshft", "loadc", "aloadc", "load", "store", "gload", "gstore",
   "halloc", "deref", "derefb", "hset", "hsetof", "puts", "putc", "native", "hlt"].map cstr

/-- `_inst_strings_upper`. -/
def instStringsUpper : List CStr :=
  ["NOP", "PUSH", "POP", "ADD", "SUB", "MULT", "DIV", "MOD", "DUP", "CLN", "SWAP", "ADDF", "SUBF", "MULTF", "DIVF",
   "INC", "INCF", "DEC", "DECF", "JMP", "JZ", "JNZ", "CALL", "RET", "CI2F", "CI2U", "CF2I", "CF2U", "CU2I", "CU2F",
   "GT", "GTF", "LT", "LTF", "EQ", "EQF", "GE", "GEF", "LE", "LEF", "AND", "OR", "NOT",
   "BAND", "BOR", "BNOT", "LSHFT", "RSHFT", "LOADC", "ALOADC", "LOAD", "STORE", "GLOAD", "GSTORE",
   "HALLOC", "DEREF", "DEREFB", "HSET", "HSETOF", "PUTS", "PUTC", "NATIVE", "HLT"].map cstr

/-- `_tci_ctypes`. -/
def tciCtypes : List CStr :=
  ["u8", "u16", "u32", "u64", "i8", "i16", "i32", "i64", "f32", "f64", "ptr", "void"].map cstr

/-- `is_id_op`, for the mnemonic at place `i` of the tables. -/
def isIdOp (i : Nat) (val : CStr) : Bool :=
  instStringsLower[i]? == some val || instStringsUpper[i]? == some val

/-- `is_id_ctype`. -/
def isIdCtype (i : Nat) (val : CStr) : Bool := tciCtypes[i]? == some val

/-- The token that a word of letters, digits and underscores makes: a mnemonic, `proc`, `endp`, a C
type, `cfun`, `data`, or an identifier. -/
def wordType (val : CStr) : TokenType :=
  match (List.range 63).find? (isIdOp · val) >>= OpType.ofNat? with
  | some op => .op op
  | none =>
    if val = cstr "proc" then .proc
    else if val = cstr "endp" then .endp
    else
      match (List.range 12).find? (isIdCtype · val) >>= CType.ofNat? with
      | some t => .tci t
      | none =>
        if val = cstr "cfun" then .cfunction
        else if val = cstr "data" then .data
        else .id

example : wordType (cstr "hsetof") = .op .hsetof ∧ wordType (cstr "Push") = .id ∧ wordType (cstr "ptr") = .tci .ptr := by
  decide

end TileVm
