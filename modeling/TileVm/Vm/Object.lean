/-
The values of the machine: words and bytes of an x86-64 host, `object_t` with its payload union,
the 63 opcodes in their enumeration order, and `opcode_t`.
-/
import Mathlib.Algebra.Order.Ring.Int
import Mathlib.Data.List.Basic

namespace TileVm

/-- A byte, of memory, of a file or of a source text. -/
abbrev Byte := BitVec 8

/-- An address (`uintptr_t`, 64 bits). -/
abbrev Addr := BitVec 64

/-- The bytes of a string, without its terminating NUL. -/
abbrev CStr := List Byte

/-- The bytes of an ASCII literal. -/
def cstr (s : String) : CStr := s.toList.map fun c => BitVec.ofNat 8 c.toNat

def tvmStackCapacity : Nat := 1024
def tvmProgramCapacity : Nat := 1024
def tvmMetadataMaxCfunCapacity : Nat := 512
def tvmMetadataMaxModuleCapacity : Nat := 32
def returnStackCapacity : Nat := 1024
def tvmMaxLocalVar : Nat := 64

/-- `word_t` arithmetic: the successor of a 32-bit word. -/
def wordSucc (n : Nat) : Nat := (n + 1) % 2 ^ 32

/-! ## Objects -/

/-- `stack_obj_type_t`. -/
inductive StackObjType where
  | noOperand
  | dataAddress
  | vmAddress
  | number
  | character
deriving DecidableEq, Repr

/-- The enumeration value, as the `uint8_t` tag stores it. -/
def StackObjType.code : StackObjType → Byte
  | .noOperand => 0
  | .dataAddress => 1
  | .vmAddress => 2
  | .number => 3
  | .character => 4

/-- `object_t`: a tag, and the union as its widest member `ui64`. The members `ui32`, `i32` and
`f32` are its low four bytes and `ui8` its lowest (little-endian). -/
structure ObjectT where
  type : Byte
  ui64 : BitVec 64
deriving DecidableEq, Repr

namespace ObjectT

/-- The object of a zero-initialized slot. -/
def zero : ObjectT := ⟨0, 0⟩

def ui8 (o : ObjectT) : BitVec 8 := o.ui64.setWidth 8

/-- The low four bytes, read as `ui32`, `i32` or `f32`. -/
def ui32 (o : ObjectT) : BitVec 32 := o.ui64.setWidth 32

/-- A write to `ui32`, `i32` or `f32`: the tag and the upper four bytes stay. -/
def setUi32 (o : ObjectT) (v : BitVec 32) : ObjectT :=
  { o with ui64 := o.ui64.extractLsb' 32 32 ++ v }

/-- A write to `ui64`: the tag stays. -/
def setUi64 (o : ObjectT) (v : BitVec 64) : ObjectT := { o with ui64 := v }

@[simp] theorem ui32_setUi32 (o : ObjectT) (v : BitVec 32) : (o.setUi32 v).ui32 = v := by
  unfold ui32 setUi32
  rw [BitVec.setWidth_append, dif_pos (Nat.le_refl _), BitVec.setWidth_eq]

@[simp] theorem type_setUi32 (o : ObjectT) (v : BitVec 32) : (o.setUi32 v).type = o.type := rfl

@[simp] theorem type_setUi64 (o : ObjectT) (v : BitVec 64) : (o.setUi64 v).type = o.type := rfl

end ObjectT

/-! ## Opcodes -/

/-- The 63 mnemonics, in the order that `optype_t`, the `AST_OP_*` tags and the `TOKEN_OP_*`
tokens share. -/
inductive OpType where
  | nop | push | pop
  | add | sub | mult | div | mod
  | dup | cln | swap
  | addf | subf | multf | divf
  | inc | incf | dec | decf
  | jmp | jz | jnz | call | ret
  | ci2f | ci2u | cf2i | cf2u | cu2i | cu2f
  | gt | gtf | lt | ltf | eq | eqf | ge | gef | le | lef
  | and | or | not
  | band | bor | bnot | lshft | rshft
  | loadc | aloadc | load | store | gload | gstore
  | halloc | deref | derefb | hset | hsetof
  | puts | putc
  | native
  | halt
deriving DecidableEq, Repr

namespace OpType

/-- Every mnemonic, by its enumeration value. -/
def all : List OpType :=
  [nop, push, pop, add, sub, mult, div, mod, dup, cln, swap, addf, subf, multf, divf,
   inc, incf, dec, decf, jmp, jz, jnz, call, ret, ci2f, ci2u, cf2i, cf2u, cu2i, cu2f,
   gt, gtf, lt, ltf, eq, eqf, ge, gef, le, lef, and, or, not, band, bor, bnot, lshft, rshft,
   loadc, aloadc, load, store, gload, gstore, halloc, deref, derefb, hset, hsetof,
   puts, putc, native, halt]

/-- The mnemonic with enumeration value `n`. -/
def ofNat? (n : Nat) : Option OpType := all[n]?

/-- The enumeration value, as the `uint8_t` type of an opcode stores it. -/
def code (op : OpType) : Byte := BitVec.ofNat 8 op.ctorIdx

theorem ofNat?_code (op : OpType) : ofNat? op.code.toNat = some op := by
  cases op <;> rfl

theorem code_inj {a b : OpType} (h : a.code = b.code) : a = b := by
  have ha := ofNat?_code a
  rw [h, ofNat?_code b] at ha
  exact (Option.some.inj ha).symm

end OpType

/-- `opcode_t`. Its type is a raw byte: a loaded program can hold any. -/
structure Opcode where
  type : Byte
  operand : ObjectT
deriving DecidableEq, Repr

/-- A zero-initialized code slot, which reads as `OP_NOP`. -/
def Opcode.zero : Opcode := ⟨0, ObjectT.zero⟩

/-- `exception_t`. -/
inductive TvmException where
  | ok
  | stackUnderflow
  | stackOverflow
  | returnStackUnderflow
  | returnStackOverflow
  | invalidInstruction
  | invalidInstructionAccess
  | invalidLocalVarAccess
  | invalidGlobalVarAccess
  | invalidConstantAccess
  | invalidConstantAddressAccess
  | invalidNativeFunctionAccess
  | invalidStackAccess
  | divisionByZero
  | invalidPrimitiveSize
  | invalidArrayIndex
  | invalidByteSize
deriving DecidableEq, Repr

/-! ## C types of native functions -/

/-- `tvm_ctype`. -/
inductive CType where
  | uint8 | uint16 | uint32 | uint64
  | int8 | int16 | int32 | int64
  | float32 | float64
  | ptr | void
deriving DecidableEq, Repr

namespace CType

def all : List CType :=
  [uint8, uint16, uint32, uint64, int8, int16, int32, int64, float32, float64, ptr, void]

/-- The type with enumeration value `n`. -/
def ofNat? (n : Nat) : Option CType := all[n]?

def code (t : CType) : Byte := BitVec.ofNat 8 t.ctorIdx

/-- The declared width in bytes on a 64-bit host. -/
def size : CType → Nat
  | uint8 | int8 => 1
  | uint16 | int16 => 2
  | uint32 | int32 | float32 => 4
  | uint64 | int64 | float64 | ptr => 8
  | void => 0

/-- A result as libffi stores it on a 64-bit host: an integer that is narrower than a register is widened to one. -/
def widened (t : CType) (old v : BitVec 64) : BitVec 64 :=
  match t with
  | uint8 => (v.setWidth 8).setWidth 64
  | uint16 => (v.setWidth 16).setWidth 64
  | uint32 => (v.setWidth 32).setWidth 64
  | int8 => (v.setWidth 8).signExtend 64
  | int16 => (v.setWidth 16).signExtend 64
  | int32 => (v.setWidth 32).signExtend 64
  | float32 => old.extractLsb' 32 32 ++ v.setWidth 32
  | uint64 | int64 | float64 | ptr => v
  | void => old

end CType

end TileVm
