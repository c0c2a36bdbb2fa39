/-
The target of the backend: the part of an x86-64 processor that its code uses, and what NASM makes
of the lines of a file. How NASM reads the text of a number is a parameter, with what its manual
says about decimal numbers.
-/
import TileVm.Tasm.Ast
import TileVm.Vm.Memory

namespace TileVm

/-! ## The processor -/

/-- The registers that the code uses. -/
inductive Reg where
  | rax | rbx | rcx | rsi | rbp
deriving DecidableEq, Repr

/-- The registers, the section `.data` from the label `stack` on, and what was pushed onto the stack of the processor,
which the system places elsewhere. The flags are written by the arithmetic and never read. -/
structure X86 where
  reg : Reg → BitVec 64
  base : Addr
  data : List Byte
  pushed : List (BitVec 64)

/-- A register, the quadword at the sum of two registers, or an immediate. -/
inductive X86Operand where
  | reg (r : Reg)
  | mem (b i : Reg)
  | imm (v : BitVec 64)
deriving DecidableEq, Repr

inductive X86Inst where
  | nop
  | mov (d s : X86Operand)
  | add (d s : X86Operand)
  | sub (d s : X86Operand)
  | xor (d s : X86Operand)
  | push (s : X86Operand)
  | call (symbol : CStr)
deriving DecidableEq, Repr

namespace X86

def setReg (x : X86) (r : Reg) (v : BitVec 64) : X86 := { x with reg := Function.update x.reg r v }

/-- A load of a quadword. Outside the section there is no memory. -/
def load (x : X86) (a : Addr) : Option (BitVec 64) :=
  let off := (a - x.base).toNat
  if off + 8 ≤ x.data.length then some (ofLeBytes ((x.data.drop off).take 8)) else none

def store (x : X86) (a : Addr) (v : BitVec 64) : Option X86 :=
  let off := (a - x.base).toNat
  if off + 8 ≤ x.data.length then some { x with data := overwrite x.data off (leBytes 8 v) } else none

/-- The little-endian 32-bit word at `stack + off`. -/
def word (x : X86) (off : Nat) : Option (BitVec 32) :=
  if off + 4 ≤ x.data.length then some ((ofLeBytes ((x.data.drop off).take 4)).setWidth 32) else none

def read (x : X86) : X86Operand → Option (BitVec 64)
  | .reg r => some (x.reg r)
  | .mem b i => x.load (x.reg b + x.reg i)
  | .imm v => some v

def write (x : X86) (v : BitVec 64) : X86Operand → Option X86
  | .reg r => some (x.setReg r v)
  | .mem b i => x.store (x.reg b + x.reg i) v
  | .imm _ => none

/-- `d := f d s`. -/
def update (x : X86) (f : BitVec 64 → BitVec 64 → BitVec 64) (d s : X86Operand) : Option X86 := do
  let a ← x.read d
  let b ← x.read s
  x.write (f a b) d

/-- One instruction. A call leaves the code. -/
def step (x : X86) : X86Inst → Option X86
  | .nop => some x
  | .mov d s => do
    let v ← x.read s
    x.write v d
  | .add d s => x.update (· + ·) d s
  | .sub d s => x.update (· - ·) d s
  | .xor d s => x.update (· ^^^ ·) d s
  | .push s => do
    let v ← x.read s
    return { x with pushed := v :: x.pushed }
  | .call _ => none

/-- The code up to its call of `ExitProcess`. -/
def run : List X86Inst → X86 → Option X86
  | [], _ => none
  | .call symbol :: _, x => if symbol = cstr "ExitProcess" then some x else none
  | i :: code, x => do
    let x ← x.step i
    run code x

end X86

/-! ## The assembler -/

/-- A decimal number that fits a signed quadword. -/
def IsDecimal (text : CStr) : Prop := text ≠ [] ∧ text.all isDigit = true ∧ digitsValue 10 text 0 < 2 ^ 63

instance (text : CStr) : Decidable (IsDecimal text) := inferInstanceAs (Decidable (_ ∧ _ ∧ _))

/-- NASM, by the number it reads in a text, `none` where it reads none. Digits alone are a decimal number, whether or not
they begin with a zero, and a minus negates. -/
structure Nasm where
  number : CStr → Option (BitVec 64)
  decimal : ∀ text, IsDecimal text → number text = some (.ofNat 64 (digitsValue 10 text 0))
  negative : ∀ text, IsDecimal text → number (chr '-' :: text) = some (-.ofNat 64 (digitsValue 10 text 0))

/-- A NASM that reads decimal numbers only. -/
def Nasm.decimalOnly : Nasm where
  number text :=
    if IsDecimal text then some (.ofNat 64 (digitsValue 10 text 0))
    else
      match text with
      | c :: text => if c = chr '-' ∧ IsDecimal text then some (-.ofNat 64 (digitsValue 10 text 0)) else none
      | [] => none
  decimal _ h := if_pos h
  negative text h := by
    have hsign : ¬ IsDecimal (chr '-' :: text) := by
      rintro ⟨-, hall, -⟩
      rw [List.all_cons] at hall
      exact absurd (Bool.and_eq_true_iff.1 hall).1 (by decide)
    rw [if_neg hsign]
    exact if_pos ⟨rfl, h⟩

/-- The mnemonics of the file. -/
inductive NasmMnemonic where
  | nop | mov | add | sub | xor | push | call
deriving DecidableEq, Repr

/-- An operand as it is written: `qword [b + i]`, the text of a number, `qword` with such a text, a symbol. -/
inductive NasmOperand where
  | reg (r : Reg)
  | mem (b i : Reg)
  | number (text : CStr)
  | qword (text : CStr)
  | symbol (name : CStr)
deriving DecidableEq, Repr

/-- A line of a file: a comment, directive or label; an instruction; or bytes of zero under a label. -/
inductive NasmLine where
  | text (t : CStr)
  | inst (m : NasmMnemonic) (operands : List NasmOperand)
  | zeros (label : CStr) (count : Nat)
deriving DecidableEq, Repr

namespace Nasm

/-- The operand, with `stack` for the address of that label. -/
def operand (nasm : Nasm) (stack : Addr) : NasmOperand → Option X86Operand
  | .reg r => some (.reg r)
  | .mem b i => some (.mem b i)
  | .number text | .qword text => (nasm.number text).map .imm
  | .symbol name => if name = cstr "stack" then some (.imm stack) else none

def inst (nasm : Nasm) (stack : Addr) : NasmMnemonic → List NasmOperand → Option X86Inst
  | .nop, [] => some .nop
  | .mov, [d, s] => return .mov (← nasm.operand stack d) (← nasm.operand stack s)
  | .add, [d, s] => return .add (← nasm.operand stack d) (← nasm.operand stack s)
  | .sub, [d, s] => return .sub (← nasm.operand stack d) (← nasm.operand stack s)
  | .xor, [d, s] => return .xor (← nasm.operand stack d) (← nasm.operand stack s)
  | .push, [s] => return .push (← nasm.operand stack s)
  | .call, [.symbol name] => some (.call name)
  | _, _ => none

/-- The code of a line. -/
def line (nasm : Nasm) (stack : Addr) : NasmLine → Option (List X86Inst)
  | .inst m operands => (nasm.inst stack m operands).map fun i => [i]
  | .text _ | .zeros _ _ => some []

/-- The code of a file, `none` when NASM refuses a line. -/
def assemble (nasm : Nasm) (stack : Addr) : List NasmLine → Option (List X86Inst)
  | [] => some []
  | l :: lines => do
    let code ← nasm.line stack l
    let rest ← nasm.assemble stack lines
    return code ++ rest

end Nasm

/-- The bytes that a file reserves under a label. -/
def reserved (label : CStr) : List NasmLine → Nat
  | [] => 0
  | .zeros l count :: lines => if l = label then count else reserved label lines
  | _ :: lines => reserved label lines

end TileVm
