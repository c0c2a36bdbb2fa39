/-
Canonical printing: programs as they are written down, their tree, and their text. An item takes one
line, a proc one for each statement and two around them; every line can be indented, and blank lines and
lines of comment can stand between any two.
-/
import Mathlib.Data.Nat.Digits.Lemmas
import TileVm.Tasm.ParserSpec

namespace TileVm

/-! ## Decimals -/

/-- The byte of a decimal digit. -/
def digitChar (d : Nat) : Byte := BitVec.ofNat 8 (48 + d)

/-- A natural number in decimal. -/
def decimalText (n : Nat) : CStr := if n = 0 then [chr '0'] else (Nat.digits 10 n).reverse.map digitChar

/-- An integer in decimal, with a minus sign if it is negative. -/
def literal (v : Int) : CStr := if v < 0 then chr '-' :: decimalText v.natAbs else decimalText v.natAbs

theorem digitChar_value {d : Nat} (h : d < 10) : digitValue (digitChar d) = some d ∧ isDigit (digitChar d) = true := by
  revert d
  decide

/-- Digits below the base are all read. -/
theorem digitsValue_spelled {base : Nat} {text : CStr} {ds : List Nat} (htext : text.map digitValue = ds.map some)
    (hlt : ∀ d ∈ ds, d < base) (acc : Nat) : digitsValue base text acc = ds.foldl (fun a d => a * base + d) acc := by
  induction text generalizing ds acc with
  | nil =>
    cases ds with
    | nil => rfl
    | cons d ds => cases htext
  | cons c text ih =>
    cases ds with
    | nil => cases htext
    | cons d ds =>
      obtain ⟨hc, htext⟩ := List.cons.inj htext
      rw [digitsValue, hc]
      dsimp only
      rw [if_pos (hlt d (by simp))]
      exact ih htext (fun e he => hlt e (by simp [he])) (acc * base + d)

theorem foldl_digits (base : Nat) (ds : List Nat) : ds.foldl (fun a d => a * base + d) 0 = Nat.ofDigits base ds.reverse := by
  rw [Nat.ofDigits_eq_foldr, List.foldr_reverse]
  congr 1
  funext a d
  simp only [Nat.cast_id, Nat.mul_comm base]
  exact Nat.add_comm ..

theorem digitsValue_decimal (n : Nat) : digitsValue 10 (decimalText n) 0 = n := by
  unfold decimalText
  split
  · subst n
    rfl
  · have hlt : ∀ d ∈ (Nat.digits 10 n).reverse, d < 10 := fun d hd => Nat.digits_lt_base (by norm_num) (List.mem_reverse.mp hd)
    have hvalues : ((Nat.digits 10 n).reverse.map digitChar).map digitValue = (Nat.digits 10 n).reverse.map some := by
      rw [List.map_map]
      exact List.map_congr_left fun d hd => (digitChar_value (hlt d hd)).1
    rw [digitsValue_spelled hvalues hlt, foldl_digits, List.reverse_reverse, Nat.ofDigits_digits]

theorem decimal_digits (n : Nat) : ∀ c ∈ decimalText n, isDigit c = true := by
  unfold decimalText
  split
  · decide
  · intro c hc
    obtain ⟨d, hd, rfl⟩ := List.mem_map.mp hc
    exact (digitChar_value (Nat.digits_lt_base (by norm_num) (List.mem_reverse.mp hd))).2

theorem decimal_ne_nil (n : Nat) : decimalText n ≠ [] := by
  unfold decimalText
  split
  · simp
  · simpa [Nat.digits_eq_nil_iff_eq_zero] using ‹¬ n = 0›

/-- A 32-bit number has at most ten digits. -/
theorem decimal_length {n : Nat} (h : n ≤ 2 ^ 31) : (decimalText n).length ≤ 10 := by
  unfold decimalText
  split
  · simp
  · rw [List.length_map, List.length_reverse]
    exact (Nat.digits_length_le_iff (by norm_num) n).mpr (by omega)

theorem digit_no_sign {c : Byte} (h : isDigit c = true) : isSpace c = false ∧ c ≠ chr '-' ∧ c ≠ chr '+' := by
  revert c
  decide

theorem takeSign_literal (v : Int) :
    takeSign ((literal v).dropWhile isSpace) = (decide (v < 0), decimalText v.natAbs) := by
  unfold literal
  split
  · rw [List.dropWhile_cons_of_neg (by decide), takeSign, if_pos rfl, decide_eq_true (by assumption)]
  · obtain ⟨c, cs, hc⟩ := List.exists_cons_of_ne_nil (decimal_ne_nil v.natAbs)
    obtain ⟨hspace, hminus, hplus⟩ := digit_no_sign (decimal_digits v.natAbs c (by simp [hc]))
    rw [hc, List.dropWhile_cons_of_neg (by simp [hspace]), takeSign, if_neg hminus, if_neg hplus,
      decide_eq_false (by assumption)]

/-- `atoi` reads back what was printed. -/
theorem strtoll_literal {v : Int} (hlo : -2 ^ 31 ≤ v) (hhi : v < 2 ^ 31) : strtoll 10 (literal v) = v := by
  unfold strtoll
  rw [takeSign_literal]
  dsimp only
  have hbase : ¬ ((10 : Nat) = 16 ∧ ((decimalText v.natAbs).take 2 = cstr "0x" ∨ (decimalText v.natAbs).take 2 = cstr "0X")) :=
    fun h => absurd h.1 (by decide)
  rw [if_neg hbase, digitsValue_decimal]
  by_cases h : v < 0
  · rw [if_pos (by simpa using h)]
    omega
  · rw [if_neg (by simpa using h)]
    omega

/-! ## Programs -/

/-- An identifier: a word of at most 127 characters that starts with no digit and is not reserved. -/
structure Ident where
  text : CStr
  start : (isAlpha (text.headD 0) || text.headD 0 == chr '_') = true
  chars : ∀ c ∈ text, isIdChar c = true
  short : text.length ≤ 127
  free : wordType text = .id

/-- A number of 32 bits with a sign. -/
structure IntLit where
  value : Int
  lower : -2 ^ 31 ≤ value
  upper : value < 2 ^ 31

/-- A number of 32 bits that needs no sign. -/
structure NatLit extends IntLit where
  nonneg : 0 ≤ value

/-- The operands of the mnemonics of a kind, with integers for the numbers. -/
inductive Operand : OperandKind → Type where
  | nothing : Operand .nothing
  | push (v : IntLit) : Operand .push
  | int (n : NatLit) : Operand .int
  | jump (n : NatLit) : Operand .jump
  | jumpLabel (x : Ident) : Operand .jump
  | label (x : Ident) : Operand .label

/-- An instruction. Its mnemonic is written in one of the two cases of the tables. -/
structure Inst where
  op : OpType
  capital : Bool
  operand : Operand op.operandKind

/-- What can stand in a proc: an instruction or a label. -/
inductive Statement where
  | inst (i : Inst)
  | label (x : Ident)

/-- What can stand in a file. -/
inductive FileItem where
  | statement (s : Statement)
  | proc (x : Ident) (body : List Statement)
  | cfun (rtype : CType) (x : Ident) (atypes : List CType)
  | data (v : IntLit)

/-! ## Trees -/

def IntLit.ast (v : IntLit) : TasmAst := .number (literal v.value) (.ofInt 32 v.value)

def Operand.ast : {k : OperandKind} → Operand k → Option TasmAst
  | _, .nothing => none
  | _, .push v => some v.ast
  | _, .int n => some n.ast
  | _, .jump n => some n.ast
  | _, .jumpLabel x => some (.labelCall (some x.text))
  | _, .label x => some (.labelCall (some x.text))

/-- The text of a mnemonic. -/
def mnemonic (capital : Bool) (o : OpType) : CStr :=
  (if capital then instStringsUpper else instStringsLower).getD o.ctorIdx []

def Inst.ast (i : Inst) : TasmAst := .op i.op (some (mnemonic i.capital i.op)) i.operand.ast

def Statement.ast : Statement → TasmAst
  | inst i => i.ast
  | label x => .labelDecl (some x.text)

/-- The count of the argument types is a `uint16_t`. -/
def FileItem.ast : FileItem → TasmAst
  | statement s => s.ast
  | proc x body => .proc (some x.text) (body.map Statement.ast)
  | cfun rtype x atypes => .cfunction rtype.code (atypes.map CType.code) (atypes.length % 2 ^ 16) (some x.text)
  | data v => .data (some v.ast)

/-! ## Texts -/

/-- What is written on one line. -/
inductive SourceLine where
  | statement (s : Statement)
  | proc (x : Ident)
  | endp
  | cfun (rtype : CType) (x : Ident) (atypes : List CType)
  | data (v : IntLit)

/-- The lines of an item. -/
def FileItem.lines : FileItem → List SourceLine
  | statement s => [.statement s]
  | proc x body => .proc x :: body.map .statement ++ [.endp]
  | cfun rtype x atypes => [.cfun rtype x atypes]
  | data v => [.data v]

/-- The operand, with the blank in front of it. -/
def Operand.text : {k : OperandKind} → Operand k → CStr
  | _, .nothing => []
  | _, .push v => chr ' ' :: literal v.value
  | _, .int n => chr ' ' :: literal n.value
  | _, .jump n => chr ' ' :: literal n.value
  | _, .jumpLabel x => chr ' ' :: x.text
  | _, .label x => chr ' ' :: x.text

def Statement.text : Statement → CStr
  | inst i => mnemonic i.capital i.op ++ i.operand.text
  | label x => x.text ++ [chr ':']

/-- The name of a C type. -/
def ctypeName (t : CType) : CStr := tciCtypes.getD t.ctorIdx []

def SourceLine.text : SourceLine → CStr
  | statement s => s.text
  | proc x => cstr "proc" ++ chr ' ' :: x.text
  | endp => cstr "endp"
  | cfun rtype x atypes =>
    chr '@' :: cstr "cfun" ++ chr ' ' :: ctypeName rtype ++ chr ' ' :: x.text ++
      atypes.flatMap fun t => chr ' ' :: ctypeName t
  | data v => chr '@' :: cstr "data" ++ chr ' ' :: literal v.value

/-- What stands behind the indentation of a line: nothing, a comment up to the end of the line, or a line of the
program. -/
inductive Content where
  | blank
  | comment (text : CStr) (ends : ∀ c ∈ text, c ≠ chr '\n' ∧ c ≠ 0 ∧ c ≠ eofChar)
  | line (l : SourceLine)

def Content.text : Content → CStr
  | blank => []
  | comment text _ => chr ';' :: text
  | line l => l.text

def Content.line? : Content → Option SourceLine
  | line l => some l
  | _ => none

/-- A line of a file. -/
structure Row where
  indent : CStr
  blanks : ∀ c ∈ indent, isBlank c = true
  content : Content

def Row.text (r : Row) : CStr := r.indent ++ r.content.text

/-- The text of the rows, with newlines between them. When the last row is empty, the text ends with a newline. -/
def rowsText (rows : List Row) (last : Row) : CStr := rows.flatMap (fun r => r.text ++ [chr '\n']) ++ last.text

/-- The text has the program's lines on its rows, in order, with nothing but blank rows and comments between them. -/
def Prints (prog : List FileItem) (text : CStr) : Prop :=
  ∃ rows last, (rows ++ [last]).filterMap (·.content.line?) = prog.flatMap FileItem.lines ∧ text = rowsText rows last

end TileVm
