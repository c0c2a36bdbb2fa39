/-
The syntax tree of the assembler (`tasm_ast_t`): one node type for the file, its lines and their
operands, as the tagged union has it, and the values of number literals.
-/
import TileVm.Tasm.Lexer

namespace TileVm

/-- `tasm_ast_t`. The 63 instruction tags are one constructor; a name or a text is `none` where the
pointer is `NULL`. -/
inductive TasmAst where
  | none
  | file (lines : List TasmAst)
  | cfunction (retType : Byte) (argTypes : List Byte) (argCount : Nat) (name : Option CStr)
  | cstruct (name : CStr)
  | data (value : Option TasmAst)
  | op (o : OpType) (name : Option CStr) (operand : Option TasmAst)
  | string (value : CStr) (length : Nat)
  | number (textValue : CStr) (value : BitVec 32)
  | char (value : Option CStr)
  | labelDecl (name : Option CStr)
  | labelCall (name : Option CStr)
  | proc (name : Option CStr) (lines : List TasmAst)

namespace TasmAst

/-- `node->tag == AST_OP_..`. -/
def isOp (o : OpType) : TasmAst → Bool
  | .op o' _ _ => o' == o
  | _ => false

end TasmAst

/-! ## Number literals -/

/-- The machine on which the assembler runs, as far as the code looks at it. -/
class Host where
  littleEndian : Bool

/-- Where nothing else is said, the assembler runs on x86-64. -/
instance (priority := low) x86_64 : Host := ⟨true⟩

/-- `_is_little_endian`. -/
def isLittleEndian [host : Host] : Bool := host.littleEndian

/-- `swap_endian_uint32`. -/
def swapEndianUint32 (v : BitVec 32) : BitVec 32 :=
  (v >>> 24 &&& 0x000000FF) ||| (v >>> 8 &&& 0x0000FF00) ||| (v <<< 8 &&& 0x00FF0000) ||| (v <<< 24 &&& 0xFF000000)

/-- The value of a digit or letter in a number of base up to 36. -/
def digitValue (c : Byte) : Option Nat :=
  if chr '0' ≤ c && c ≤ chr '9' then some (c.toNat - 48)
  else if chr 'a' ≤ c && c ≤ chr 'z' then some (c.toNat - 87)
  else if chr 'A' ≤ c && c ≤ chr 'Z' then some (c.toNat - 55)
  else none

/-- The number that the longest prefix of digits in `base` spells, after the digits of `acc`. -/
def digitsValue (base : Nat) : CStr → Nat → Nat
  | [], acc => acc
  | c :: text, acc =>
    match digitValue c with
    | some d => if d < base then digitsValue base text (acc * base + d) else acc
    | none => acc

/-- `isspace`, in the C locale. -/
def isSpace (c : Byte) : Bool := c == chr ' ' || (9 ≤ c && c ≤ 13)

/-- An optional sign, and the text after it. -/
def takeSign : CStr → Bool × CStr
  | [] => (false, [])
  | c :: text => if c = chr '-' then (true, text) else if c = chr '+' then (false, text) else (false, c :: text)

/-- `strtol` and `strtoll`, both of 64 bits: blanks, a sign, for base 16 an optional `0x`, and digits;
a value out of range becomes the closest one. -/
def strtoll (base : Nat) (text : CStr) : Int :=
  let (negative, text) := takeSign (text.dropWhile isSpace)
  let text := if base = 16 ∧ (text.take 2 = cstr "0x" ∨ text.take 2 = cstr "0X") then text.drop 2 else text
  let n := digitsValue base text 0
  if negative then max (-(n : Int)) (-2 ^ 63) else min (n : Int) (2 ^ 63 - 1)

/-- The binary32 pattern closest to `num / den`, ties to the even one: `n / den` counts units of the
smallest subnormal, and `k` of its binary digits do not fit the significand. -/
def binary32Bits (num den : Nat) : Nat :=
  let n := num * 2 ^ 149
  let k := (n / den).log2 - 23
  let unit := den * 2 ^ k
  let q := n / unit
  let rest := n % unit
  let q := if unit < 2 * rest ∨ (2 * rest = unit ∧ q % 2 = 1) then q + 1 else q
  min (k * 2 ^ 23 + q) 0x7F800000

/-- `strtof`, on the texts of float tokens: a sign, digits, and a point with more digits. -/
def strtof (text : CStr) : BitVec 32 :=
  let (negative, text) := takeSign text
  let whole := text.takeWhile isDigit
  let frac := ((text.drop whole.length).drop 1).takeWhile isDigit
  let bits := BitVec.ofNat 32 (binary32Bits (digitsValue 10 (whole ++ frac) 0) (10 ^ frac.length))
  if negative then bits ||| 0x80000000 else bits

example : strtof (cstr "1.0") = 0x3F800000 ∧ strtof (cstr "-0.1") = 0xBDCCCCCD := by decide +kernel

/-- The 32 bits of a number literal, by the type of its token. The value of a hexadecimal or binary
literal is taken for a big-endian one. -/
def numLitValue (littleEndian : Bool) (type : TokenType) (text : CStr) : Option (BitVec 32) :=
  let fromBigEndian (v : BitVec 32) : BitVec 32 := if littleEndian then swapEndianUint32 v else v
  match type with
  | .decimalNumber => some (.ofInt 32 (strtoll 10 text))
  | .floatNumber => some (strtof text)
  | .hexNumber => some (fromBigEndian (.ofInt 32 (strtoll 16 text)))
  | .binaryNumber => some (fromBigEndian (.ofInt 32 (strtoll 2 text)))
  | _ => none

example : numLitValue true .decimalNumber (cstr "-12") = some (-12) ∧
    numLitValue true .hexNumber (cstr "1F") = some 0x1F000000 := by decide

end TileVm
