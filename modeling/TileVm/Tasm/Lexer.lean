/-
The lexer: a cursor over the source text with the characters around it, the `static` peek counter
of the string scanner, and one function for each token collector. Every `while` of the source is a
loop with fuel; a write past `temp_val[127]` is a fault.
-/
import TileVm.Lib.Loop
import TileVm.Tasm.Token

namespace TileVm

/-! ## Characters -/

/-- `EOF` as a `char`: the byte `0xFF`. -/
def eofChar : Byte := 0xFF

/-- The byte of an ASCII character. -/
def chr (c : Char) : Byte := BitVec.ofNat 8 c.toNat

/-- `isdigit`. The classes hold of no byte above 127. -/
def isDigit (c : Byte) : Bool := chr '0' ≤ c && c ≤ chr '9'

/-- `isalpha`. -/
def isAlpha (c : Byte) : Bool := (chr 'a' ≤ c && c ≤ chr 'z') || (chr 'A' ≤ c && c ≤ chr 'Z')

/-- `isalnum(c) || c == '_'`. -/
def isIdChar (c : Byte) : Bool := isAlpha c || isDigit c || c == chr '_'

/-- `isxdigit`. -/
def isXDigit (c : Byte) : Bool :=
  isDigit c || (chr 'a' ≤ c && c ≤ chr 'f') || (chr 'A' ≤ c && c ≤ chr 'F')

def isBinDigit (c : Byte) : Bool := c == chr '0' || c == chr '1'

def isBlank (c : Byte) : Bool := c == chr ' ' || c == chr '\t'

/-- `isbinprefix`. -/
def isbinprefix (first second : Byte) : Bool := first == chr '0' && (second == chr 'b' || second == chr 'B')

/-- `ishexprefix`. -/
def ishexprefix (first second : Byte) : Bool := first == chr '0' && (second == chr 'x' || second == chr 'X')

/-! ## State -/

/-- What the lexer prints as an error; it sets no flag. -/
inductive LexError where
  | missingQuota
  | unknownEscape (c : Byte)
deriving DecidableEq, Repr

/-- The text behind `ERROR` in the report. -/
def LexError.text : LexError → CStr
  | .missingQuota => cstr " missing string quota '\"'\n"
  | .unknownEscape c => cstr " unknown escape sequence '\\" ++ c :: cstr "'\n"

/-- `tasm_lexer_t`, with the `static` counter of `tasm_lexer_peek_upgraded` and the errors printed
so far, each with its row and column. -/
structure TasmLexer where
  cursor : Nat
  prevChar : Byte
  currentChar : Byte
  nextChar : Byte
  sourceCode : List Byte
  sourceCodeSize : Nat
  row : Nat
  col : Nat
  peek : Nat
  reports : List (Nat × Nat × LexError)
deriving DecidableEq, Repr

namespace TasmLexer

/-- `source_code[i]`; the lexer never reads behind the terminating NUL. -/
def charAt (lx : TasmLexer) (i : Nat) : Byte := lx.sourceCode.getD i 0

/-- `printf` of an error at the current location. -/
def report (lx : TasmLexer) (e : LexError) : TasmLexer :=
  { lx with reports := lx.reports ++ [(lx.row, lx.col, e)] }

end TasmLexer

/-- `tasm_lexer_init`, on a NUL-terminated text. -/
def tasmLexerInit (src : List Byte) : TasmLexer where
  cursor := 0
  prevChar := src.getD 0 0
  currentChar := src.getD 0 0
  nextChar := src.getD 1 0
  sourceCode := src
  sourceCodeSize := (src.takeWhile (· ≠ 0)).length
  row := 1
  col := 0
  peek := 0
  reports := []

/-- `tasm_lexer_advance`. -/
def tasmLexerAdvance (lx : TasmLexer) : TasmLexer :=
  let lx := if lx.currentChar = chr '\n' then { lx with row := lx.row + 1, col := 0 } else lx
  if lx.currentChar ≠ eofChar ∧ lx.cursor < lx.sourceCodeSize then
    { lx with
      prevChar := lx.currentChar
      currentChar := lx.nextChar
      cursor := lx.cursor + 1
      nextChar := lx.charAt (lx.cursor + 2)
      col := lx.col + 1 }
  else lx

/-- `tasm_lexer_peek_upgraded`. The reset does not happen when the counter is at the end. -/
def tasmLexerPeekUpgraded (lx : TasmLexer) (reset : Bool) : Byte × TasmLexer :=
  if lx.sourceCodeSize ≤ lx.peek + lx.cursor then (0, lx)
  else
    let peek := if reset then 0 else lx.peek + 1
    (lx.charAt (lx.cursor + peek - 1), { lx with peek })

/-- `tasm_lexer_peek`. -/
def tasmLexerPeek (lx : TasmLexer) : Byte × TasmLexer := tasmLexerPeekUpgraded lx false

/-- `tasm_lexer_peek_reset`. -/
def tasmLexerPeekReset (lx : TasmLexer) : TasmLexer := (tasmLexerPeekUpgraded lx true).2

/-! ## Loops -/

/-- The result of a collector, or of one of its loops. -/
abbrev Lex (α : Type) := Except (Stop Fault) α

/-- `while (p(lexer->current_char)) tasm_lexer_advance(lexer);`. -/
def advanceWhile (p : Byte → Bool) (fuel : Nat) (lx : TasmLexer) : Lex TasmLexer :=
  Loop.run (fun lx => p lx.currentChar) (fun lx => .ok (tasmLexerAdvance lx)) fuel lx

/-- `tasm_lexer_skip_whitespace`. -/
def tasmLexerSkipWhitespace : Nat → TasmLexer → Lex TasmLexer := advanceWhile isBlank

/-- `tasm_lexer_skip_line`. -/
def tasmLexerSkipLine : Nat → TasmLexer → Lex TasmLexer :=
  advanceWhile fun c => c != chr '\n' && c != eofChar

/-- `temp_val[len++] = c`, where `len` is the length of the text so far. -/
def tempPut (text : List Byte) (c : Byte) : Lex (List Byte) :=
  if text.length < 128 then .ok (text ++ [c]) else .error (.fault (.outOfBounds .tempVal))

/-- `temp_val[len] = '\0'`, and the copy of the text into the arena. -/
def tempEnd (text : List Byte) : Lex CStr :=
  if text.length < 128 then .ok text else .error (.fault (.outOfBounds .tempVal))

/-- `while (p(current)) { temp_val[len] = current; len++; advance; }`. -/
def collectWhile (p : Byte → Bool) (fuel : Nat) (s : TasmLexer × List Byte) : Lex (TasmLexer × List Byte) :=
  Loop.run (fun s => p s.1.currentChar)
    (fun s => (tempPut s.2 s.1.currentChar).map fun text => (tasmLexerAdvance s.1, text)) fuel s

/-! ## Collectors -/

/-- `tasm_lexer_collect_id`. -/
def tasmLexerCollectId (fuel : Nat) (lx : TasmLexer) : Lex (TasmToken × TasmLexer) := do
  let (lx, text) ← collectWhile isIdChar fuel (lx, [])
  let val ← tempEnd text
  return (⟨wordType val, some val⟩, lx)

/-- `tasm_lexer_collect_number`. -/
def tasmLexerCollectNumber (fuel : Nat) (lx : TasmLexer) : Lex (TasmToken × TasmLexer) := do
  let (lx, text) ← collectWhile isDigit fuel (lx, [])
  if lx.currentChar = chr '.' then do
    let text ← tempPut text lx.currentChar
    let (lx, text) ← collectWhile isDigit fuel (tasmLexerAdvance lx, text)
    let val ← tempEnd text
    return (⟨.floatNumber, some val⟩, lx)
  else do
    let val ← tempEnd text
    return (⟨.decimalNumber, some val⟩, lx)

/-- A number with a two-character prefix: the digits after it. -/
def collectPrefixed (p : Byte → Bool) (type : TokenType) (fuel : Nat) (lx : TasmLexer) :
    Lex (TasmToken × TasmLexer) := do
  let (lx, text) ← collectWhile p fuel (tasmLexerAdvance (tasmLexerAdvance lx), [])
  let val ← tempEnd text
  return (⟨type, some val⟩, lx)

/-- `tasm_lexer_collect_hex_number`. -/
def tasmLexerCollectHexNumber : Nat → TasmLexer → Lex (TasmToken × TasmLexer) :=
  collectPrefixed isXDigit .hexNumber

/-- `tasm_lexer_collect_binary_number`. -/
def tasmLexerCollectBinaryNumber : Nat → TasmLexer → Lex (TasmToken × TasmLexer) :=
  collectPrefixed isBinDigit .binaryNumber

/-- `tasm_lexer_collect_char`. The closing apostrophe is left for the next call. -/
def tasmLexerCollectChar (lx : TasmLexer) : TasmToken × TasmLexer :=
  let c := lx.currentChar
  let lx := tasmLexerAdvance lx
  if lx.currentChar ≠ chr '\'' then (⟨.none, none⟩, tasmLexerAdvance lx)
  else (⟨.char, some [c]⟩, lx)

/-- The characters that `tasm_lexer_collect_str` accepts after a backslash. -/
def unescape (c : Byte) : Option Byte :=
  if c = chr 'n' then some 10
  else if c = chr 't' then some 9
  else if c = chr 'r' then some 13
  else if c = chr '\\' then some (chr '\\')
  else if c = chr '"' then some (chr '"')
  else if c = chr '0' then some 0
  else none

/-- The first loop of `tasm_lexer_collect_str`: `line_end` counts the characters up to the end of
the line, `c` is the last one peeked. -/
def lineEndLoop (fuel : Nat) (lx : TasmLexer) : Lex (TasmLexer × Nat) := do
  let first := tasmLexerPeek lx
  let s ← Loop.run (fun (s : Byte × Nat × TasmLexer) => s.1 != chr '\n' && s.1 != eofChar)
    (fun s =>
      let next := tasmLexerPeek s.2.2
      .ok (next.1, s.2.1 + 1, next.2)) fuel (first.1, 0, first.2)
  return (s.2.2, s.2.1)

/-- One turn of the second loop of `tasm_lexer_collect_str`: a character or an escape sequence. -/
def strBody (s : TasmLexer × List Byte) : Lex (TasmLexer × List Byte) :=
  let (lx, text) := s
  if lx.currentChar = chr '\\' then
    let lx := tasmLexerAdvance lx
    match unescape lx.currentChar with
    | some b => (tempPut text b).map fun text => (tasmLexerAdvance lx, text)
    | none => .ok (tasmLexerAdvance (lx.report (.unknownEscape lx.currentChar)), text)
  else (tempPut text lx.currentChar).map fun text => (tasmLexerAdvance lx, text)

/-- `tasm_lexer_collect_str`. The second loop ends at the closing quote, or breaks when the text is
longer than the line. -/
def tasmLexerCollectStr (fuel : Nat) (lx : TasmLexer) : Lex (TasmToken × TasmLexer) := do
  let (lx, lineEnd) ← lineEndLoop fuel lx
  let lx := tasmLexerPeekReset lx
  let (lx, text) ← Loop.run
    (fun (s : TasmLexer × List Byte) => s.1.currentChar != chr '"' && !decide (lineEnd < s.2.length))
    strBody fuel (lx, [])
  let lx := if lx.currentChar ≠ chr '"' then lx.report .missingQuota else lx
  let val ← tempEnd text
  return (⟨.string, some val⟩, lx)

/-- `lexer_collect_one_chars`. -/
def lexerCollectOneChars (fuel : Nat) (lx : TasmLexer) : Lex (TasmToken × TasmLexer) :=
  let one (type : TokenType) (value : String) : Lex (TasmToken × TasmLexer) :=
    .ok (⟨type, some (cstr value)⟩, tasmLexerAdvance lx)
  if lx.currentChar = chr '\n' then one .endline "endl"
  else if lx.currentChar = chr ';' then do
    let lx ← tasmLexerSkipLine fuel lx
    return (⟨.comment, some (cstr ";")⟩, lx)
  else if lx.currentChar = chr ':' then one .colon ":"
  else if lx.currentChar = chr '\'' then one .apost "'"
  else if lx.currentChar = chr '"' then one .quota "\""
  else if lx.currentChar = chr '@' then one .atSign "@"
  else if lx.currentChar = chr '-' then one .minus "-"
  else if lx.currentChar = eofChar then one .eof "eof"
  else .ok (⟨.none, none⟩, tasmLexerAdvance lx)

/-- The context in which the next token is a string: right after a quote. -/
def inString (lx : TasmLexer) : Bool :=
  lx.prevChar == chr '"' && lx.currentChar != chr '"' && lx.currentChar != chr '\n' &&
    lx.currentChar != eofChar && lx.currentChar != chr '\''

/-- The context in which the next token is a character: right after an apostrophe. -/
def inChar (lx : TasmLexer) : Bool :=
  lx.prevChar == chr '\'' && lx.currentChar != chr '\n' && lx.currentChar != eofChar && lx.currentChar != chr '"'

/-- The part of `tasm_lexer_get_next_token` after the white space. -/
def collectToken (fuel : Nat) (lx : TasmLexer) : Lex (TasmToken × TasmLexer) :=
  if isAlpha lx.currentChar || lx.currentChar == chr '_' then tasmLexerCollectId fuel lx
  else if isbinprefix lx.currentChar lx.nextChar then tasmLexerCollectBinaryNumber fuel lx
  else if ishexprefix lx.currentChar lx.nextChar then tasmLexerCollectHexNumber fuel lx
  else if isDigit lx.currentChar then tasmLexerCollectNumber fuel lx
  else lexerCollectOneChars fuel lx

/-- `tasm_lexer_get_next_token`. -/
def tasmLexerGetNextToken (fuel : Nat) (lx : TasmLexer) : Lex (TasmToken × TasmLexer) :=
  if inString lx then tasmLexerCollectStr fuel lx
  else if inChar lx then .ok (tasmLexerCollectChar lx)
  else do
    let lx ← tasmLexerSkipWhitespace fuel lx
    collectToken fuel lx

end TileVm
