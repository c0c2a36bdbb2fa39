/-
The parser: two tokens of lookahead over the tokens of the lexer, and one function for each
`tasm_parse_*`. `tasm_parser_eat` does not advance on a mismatch, `tasm_parser_err` always does;
both set `is_err`.
-/
import TileVm.Tasm.Ast

namespace TileVm

/-! ## Tokens by number -/

/-- The enumeration value of `token_type_t`. -/
def TokenType.code : TokenType → Nat
  | .none => 0 | .id => 1 | .proc => 2 | .endp => 3 | .colon => 4 | .apost => 5 | .quota => 6
  | .atSign => 7 | .minus => 8 | .cfunction => 9 | .cstruct => 10 | .data => 11
  | .tciBegin => 12 | .tci t => 13 + t.ctorIdx | .tciEnd => 25
  | .instructionsTokenBegin => 26 | .op o => 27 + o.ctorIdx | .instructionsTokenEnd => 90
  | .string => 91 | .char => 92 | .decimalNumber => 93 | .floatNumber => 94 | .hexNumber => 95
  | .binaryNumber => 96 | .comment => 97 | .endline => 98 | .eof => 99

instance : Coe TokenType Nat := ⟨TokenType.code⟩

/-! ## State -/

/-- What the parser prints: an unexpected token with the type it expected, an error with its code,
or a warning. -/
inductive ParserReport where
  | unexpected (found : TasmToken) (expected : Nat)
  | error (code : Nat) (message : CStr)
  | warning (message : CStr)
deriving DecidableEq, Repr

/-- `tasm_parser_t`: `rest` are the tokens that the lexer still returns before `TOKEN_EOF`, which it
then returns forever. -/
structure TasmParser where
  currentToken : TasmToken
  nextToken : TasmToken
  rest : List TasmToken
  isErr : Bool
  procReturnWarning : Bool
  globalHltWarning : Bool
  reports : List ParserReport

/-- The result of a parsing function that can loop or crash. -/
abbrev Parse (α : Type) := Except (Stop Fault) α

/-- `current_token = next_token; next_token = tasm_lexer_get_next_token(lexer);`. -/
def TasmParser.shift (p : TasmParser) : TasmParser :=
  { p with currentToken := p.nextToken, nextToken := p.rest.headD TasmToken.eof, rest := p.rest.tail }

def TasmParser.report (p : TasmParser) (r : ParserReport) : TasmParser := { p with reports := p.reports ++ [r] }

/-- `tasm_parser_init`, on a lexer that returns `tokens` before `TOKEN_EOF`. -/
def tasmParserInit (tokens : List TasmToken) : TasmParser where
  currentToken := ⟨.none, none⟩
  nextToken := tokens.headD TasmToken.eof
  rest := tokens.tail
  isErr := false
  procReturnWarning := true
  globalHltWarning := true
  reports := []

/-- `tasm_parser_eat`. -/
def tasmParserEat (p : TasmParser) (tokenType : Nat) : TasmParser :=
  if p.currentToken.type.code ≠ tokenType then
    { p.report (.unexpected p.currentToken tokenType) with isErr := true }
  else p.shift

/-- `tasm_parser_err`. -/
def tasmParserErr (p : TasmParser) (code : Nat) (message : String) : TasmParser :=
  { (p.report (.error code (cstr message))).shift with isErr := true }

/-- `tasm_parser_warn`. -/
def tasmParserWarn (p : TasmParser) (message : CStr) : TasmParser := p.report (.warning message)

/-- A mnemonic in the colour of the warnings. -/
def pink (s : String) : CStr := 27 :: cstr "[0;35m" ++ cstr s ++ 27 :: cstr "[0m"

/-! ## Lookahead -/

/-- `is_line_label_decl`. -/
def isLineLabelDecl (p : TasmParser) : Bool := p.currentToken.type == .id && p.nextToken.type == .colon

/-- `is_line_proc`. -/
def isLineProc (p : TasmParser) : Bool := p.currentToken.type == .proc

/-- `is_line_endp`. -/
def isLineEndp (p : TasmParser) : Bool := p.currentToken.type == .endp

/-- `is_line_meta`. -/
def isLineMeta (p : TasmParser) : Bool := p.currentToken.type == .atSign

/-- `is_token_ctype`. -/
def isTokenCtype (p : TasmParser) : Bool :=
  decide (TokenType.tciBegin.code < p.currentToken.type) && decide (p.currentToken.type < TokenType.tciEnd.code)

/-- `is_line_instruction`. -/
def isLineInstruction (p : TasmParser) : Bool :=
  decide (TokenType.instructionsTokenBegin.code < p.currentToken.type) &&
    decide (p.currentToken.type < TokenType.instructionsTokenEnd.code)

/-- `is_line_cinterface_token`. -/
def isLineCinterfaceToken (p : TasmParser) : Bool :=
  p.currentToken.type == .cfunction || p.currentToken.type == .cstruct || isTokenCtype p

/-- `is_operand_int`. -/
def isOperandInt (p : TasmParser) : Bool :=
  p.currentToken.type == .decimalNumber || p.currentToken.type == .hexNumber

/-- `is_operand_number`, and the same four kinds in `tasm_parse_number_operand`. -/
def isOperandNumber (p : TasmParser) : Bool :=
  p.currentToken.type == .decimalNumber || p.currentToken.type == .floatNumber ||
    p.currentToken.type == .hexNumber || p.currentToken.type == .binaryNumber

/-- `is_operand_char`. -/
def isOperandChar (p : TasmParser) : Bool := p.currentToken.type == .apost

/-- `is_operand_label_call`. -/
def isOperandLabelCall (p : TasmParser) : Bool := p.currentToken.type == .id

/-- The kinds that start no line: both line parsers report them by one list. -/
def isUnexpected (p : TasmParser) : Bool :=
  [TokenType.id, .string, .char, .decimalNumber, .hexNumber, .floatNumber, .binaryNumber,
    .colon, .apost, .quota, .none].contains p.currentToken.type

/-! ## Literals and operands -/

/-- `tasm_parse_num_lit`. -/
def tasmParseNumLit [Host] (negative : Bool) (p : TasmParser) : Parse (TasmAst × TasmParser) :=
  match p.currentToken.value with
  | none => .error (.fault .nullPointer)
  | some value =>
    let textVal := if negative then chr '-' :: value else value
    match numLitValue isLittleEndian p.currentToken.type textVal with
    | none => .error (.fault .uninitialized)
    | some v => .ok (.number textVal v, tasmParserEat p p.currentToken.type)

/-- `tasm_parse_char_lit`. -/
def tasmParseCharLit (p : TasmParser) : TasmAst × TasmParser :=
  let p := tasmParserEat p TokenType.apost
  let val := p.currentToken.value
  let p := tasmParserEat p TokenType.char
  let p := tasmParserEat p TokenType.apost
  (.char val, p)

/-- `tasm_parse_str_lit`. The text can hold NUL bytes; `strlen` counts up to the first. -/
def tasmParseStrLit (p : TasmParser) : Parse (TasmAst × TasmParser) :=
  let p := tasmParserEat p TokenType.quota
  match p.currentToken.value with
  | none => .error (.fault .nullPointer)
  | some val =>
    let p := tasmParserEat p TokenType.string
    let p := tasmParserEat p TokenType.quota
    .ok (.string val (val.takeWhile (· ≠ 0)).length, p)

/-- `tasm_parse_label_call`. -/
def tasmParseLabelCall (p : TasmParser) : TasmAst × TasmParser :=
  (.labelCall p.currentToken.value, tasmParserEat p TokenType.id)

/-- `tasm_parse_int_operand`. -/
def tasmParseIntOperand [Host] (p : TasmParser) : Parse (Option TasmAst × TasmParser) :=
  if isOperandInt p then (tasmParseNumLit false p).map (Prod.map some id)
  else .ok (none, p)

/-- `tasm_parse_number_operand`. -/
def tasmParseNumberOperand [Host] (p : TasmParser) : Parse (Option TasmAst × TasmParser) :=
  let negative := p.currentToken.type == .minus
  let p := if negative then tasmParserEat p TokenType.minus else p
  if isOperandNumber p then (tasmParseNumLit negative p).map (Prod.map some id)
  else .ok (none, p)

/-- `tasm_parse_label_operand`. -/
def tasmParseLabelOperand (p : TasmParser) : Parse (Option TasmAst × TasmParser) :=
  if isOperandLabelCall p then .ok (Prod.map some id (tasmParseLabelCall p))
  else .ok (none, p)

/-- `tasm_parse_jmp_operand`. -/
def tasmParseJmpOperand [Host] (p : TasmParser) : Parse (Option TasmAst × TasmParser) :=
  if isOperandInt p then (tasmParseNumLit false p).map (Prod.map some id)
  else tasmParseLabelOperand p

/-- `tasm_parse_push_operand`. -/
def tasmParsePushOperand [Host] (p : TasmParser) : Parse (Option TasmAst × TasmParser) :=
  if isOperandChar p then .ok (Prod.map some id (tasmParseCharLit p))
  else tasmParseNumberOperand p

/-! ## Instructions and labels -/

/-- The end of an instruction, a proc or the file: a comment, and the end of the line or of the
text. -/
def endOfLine (p : TasmParser) : TasmParser :=
  let p := if p.currentToken.type = .comment then tasmParserEat p TokenType.comment else p
  if p.currentToken.type = .eof then tasmParserEat p TokenType.eof
  else tasmParserEat p TokenType.endline

/-- `operand = parse(parser); if (operand == NULL) tasm_parser_err(..);`. -/
def needOperand (parse : TasmParser → Parse (Option TasmAst × TasmParser)) (code : Nat) (message : String)
    (p : TasmParser) : Parse (Option TasmAst × TasmParser) :=
  (parse p).map fun r => if r.1.isNone then (none, tasmParserErr r.2 code message) else r

/-- The switch of `tasm_parse_instruction`. -/
def parseOperand [Host] : OpType → TasmParser → Parse (Option TasmAst × TasmParser)
  | .push => needOperand tasmParsePushOperand 2002 "Wrong operand for push instruction"
  | .cln => needOperand tasmParseIntOperand 2102 "Wrong operand for cln instruction"
  | .swap => needOperand tasmParseIntOperand 2202 "Wrong operand for swap instruction"
  | .jmp => needOperand tasmParseJmpOperand 2302 "Wrong operand for jmp instruction"
  | .jz => needOperand tasmParseJmpOperand 2402 "Wrong operand for jz instruction"
  | .jnz => needOperand tasmParseJmpOperand 2502 "Wrong operand for jnz instruction"
  | .call => needOperand tasmParseLabelOperand 2602 "Wrong operand for call instruction"
  | .loadc => needOperand tasmParseIntOperand 2702 "Wrong operand for loadc insturction"
  | .aloadc => needOperand tasmParseIntOperand 2702 "Wrong operand for aloadc insturction"
  | .load => needOperand tasmParseIntOperand 2702 "Wrong operand for load insturction"
  | .store => needOperand tasmParseIntOperand 2802 "Wrong operand for store insturction"
  | .gload => needOperand tasmParseIntOperand 2702 "Wrong operand for gload insturction"
  | .gstore => needOperand tasmParseIntOperand 2802 "Wrong operand for gstore insturction"
  | .derefb => needOperand tasmParseIntOperand 3002 "Wrong operand for derefb insturction"
  | .native => needOperand tasmParseIntOperand 2902 "Wrong operand for native insturction"
  | _ => fun p => .ok (none, p)

/-- `tasm_parse_instruction`. The tag is the mnemonic of the token; only the two line parsers call
it, on such a token. -/
def tasmParseInstruction [Host] (p : TasmParser) : Parse (TasmAst × TasmParser) :=
  match p.currentToken.type with
  | .op o => do
    let name := p.currentToken.value
    let (operand, p) ← parseOperand o (tasmParserEat p p.currentToken.type)
    return (.op o name operand, endOfLine p)
  | _ => .error (.fault .uninitialized)

/-- `tasm_parse_label_decl`. -/
def tasmParseLabelDecl (p : TasmParser) : TasmAst × TasmParser :=
  let labelName := p.currentToken.value
  let p := tasmParserEat p TokenType.id
  let p := tasmParserEat p TokenType.colon
  (.labelDecl labelName, p)

/-! ## Metadata -/

/-- `parser->current_token.type - TOKEN_TCI_BEGIN - 1`, stored in a `uint8_t`. -/
def ctypeByte (p : TasmParser) : Byte :=
  .ofInt 8 ((p.currentToken.type.code : Int) - TokenType.tciBegin.code - 1)

/-- The condition of the argument loop of `tasm_parse_cfunction`. -/
def argCond (s : TasmParser × List Byte × Nat) : Bool :=
  s.1.currentToken.type != .endline && s.1.currentToken.type != .eof && s.1.currentToken.type != .comment

/-- One argument type; the counter is a `uint16_t`. -/
def argBody (s : TasmParser × List Byte × Nat) : Parse (TasmParser × List Byte × Nat) :=
  let p := s.1
  let p := if isTokenCtype p then p else tasmParserEat p 4100
  .ok (tasmParserEat p p.currentToken.type, s.2.1 ++ [ctypeByte p], (s.2.2 + 1) % 2 ^ 16)

/-- `tasm_parse_cfunction`. -/
def tasmParseCfunction (fuel : Nat) (p : TasmParser) : Parse (TasmAst × TasmParser) := do
  let p := tasmParserEat p TokenType.cfunction
  let rtype := ctypeByte p
  let p := if isTokenCtype p then p else tasmParserEat p 4000
  let p := tasmParserEat p p.currentToken.type
  let funName := p.currentToken.value
  let p := tasmParserEat p TokenType.id
  let s ← Loop.run argCond argBody fuel (p, [], 0)
  return (.cfunction rtype s.2.1 s.2.2 funName, s.1)

/-- `tasm_parse_cstruct`. -/
def tasmParseCstruct (p : TasmParser) : TasmAst × TasmParser :=
  (.cstruct (cstr "cstruct"), tasmParserEat p TokenType.cstruct)

/-- The value behind `data`: a string, a character, or a number. -/
def parseDataValue [Host] (p : TasmParser) : Parse (Option TasmAst × TasmParser) :=
  if p.currentToken.type = .quota then (tasmParseStrLit p).map (Prod.map some id)
  else if p.currentToken.type = .apost then .ok (Prod.map some id (tasmParseCharLit p))
  else tasmParseNumberOperand p

/-- `tasm_parse_data`. Without a value there is no error. -/
def tasmParseData [Host] (p : TasmParser) : Parse (TasmAst × TasmParser) :=
  (parseDataValue (tasmParserEat p TokenType.data)).map (Prod.map .data id)

/-- `tasm_parse_metadata`. -/
def tasmParseMetadata [Host] (fuel : Nat) (p : TasmParser) : Parse (Option TasmAst × TasmParser) :=
  let p := tasmParserEat p TokenType.atSign
  if p.currentToken.type = .cfunction then (tasmParseCfunction fuel p).map (Prod.map some id)
  else if p.currentToken.type = .cstruct then .ok (Prod.map some id (tasmParseCstruct p))
  else if p.currentToken.type = .data then (tasmParseData p).map (Prod.map some id)
  else .ok (none, tasmParserEat p 8000)

/-! ## Lines -/

/-- `if (p(parser)) tasm_parser_err(..);`. -/
def errIf (cond : TasmParser → Bool) (code : Nat) (message : String) (p : TasmParser) : TasmParser :=
  if cond p then tasmParserErr p code message else p

/-- `if (parser->current_token.type == type) tasm_parser_eat(parser, type);`. -/
def eatIf (type : TokenType) (p : TasmParser) : TasmParser :=
  if p.currentToken.type = type then tasmParserEat p type else p

/-- The end of both line parsers, at the tokens that start no line. -/
def lineRest (unexpected cinterface : Nat) (p : TasmParser) : TasmParser :=
  let p := errIf isUnexpected unexpected "Unexpected identifier or number or symbol" p
  let p := errIf isLineCinterfaceToken cinterface "Unexpected C interface token" p
  let p := errIf isLineEndp 1000 "Unexpected endp" p
  eatIf .eof (eatIf .comment (eatIf .endline p))

/-- The checks that only `tasm_parse_proc_line` makes. -/
def globalOnly (p : TasmParser) : TasmParser :=
  let p := errIf isLineProc 3401 "A proc cannot be defined in anothe proc" p
  let p := errIf isLineMeta 3601 "Meta decleration must be declared at global scope" p
  errIf (·.currentToken.type == .data) 3601 "@data decleration must be declared at global scope" p

/-- `tasm_parse_proc_line`. -/
def tasmParseProcLine [Host] (p : TasmParser) : Parse (Option TasmAst × TasmParser) :=
  if isLineLabelDecl p then .ok (Prod.map some id (tasmParseLabelDecl p))
  else if isLineInstruction p then (tasmParseInstruction p).map (Prod.map some id)
  else .ok (none, lineRest 1201 5101 (globalOnly p))

/-- The condition of the loop of `tasm_parse_proc`. -/
def procCond (s : TasmParser × List TasmAst) : Bool :=
  s.1.currentToken.type != .endp && s.1.currentToken.type != .eof

/-- One line of a proc. -/
def procBody [Host] (s : TasmParser × List TasmAst) : Parse (TasmParser × List TasmAst) := do
  let (line, p) ← tasmParseProcLine s.1
  match line with
  | none => return (p, s.2)
  | some line =>
    let p := if line.isOp .ret then { p with procReturnWarning := false } else p
    return (p, s.2 ++ [line])

/-- The tokens before the lines of a proc. -/
def procStart (p : TasmParser) : TasmParser := tasmParserEat (tasmParserEat p TokenType.proc) TokenType.id

/-- `tasm_parse_proc`. -/
def tasmParseProc [Host] (fuel : Nat) (p : TasmParser) : Parse (TasmAst × TasmParser) := do
  let procName := (tasmParserEat p TokenType.proc).currentToken.value
  let (p, lines) ← Loop.run procCond procBody fuel (procStart p, [])
  let p := tasmParserEat p TokenType.endp
  let p := if p.procReturnWarning then
    tasmParserWarn p (cstr "procedure: there is no " ++ pink "ret" ++
      cstr " opcode. It may cause possible unpredicted behaivours") else p
  return (.proc procName lines, endOfLine { p with procReturnWarning := true })

/-- `tasm_parse_line`. -/
def tasmParseLine [Host] (fuel : Nat) (p : TasmParser) : Parse (Option TasmAst × TasmParser) :=
  if isLineLabelDecl p then .ok (Prod.map some id (tasmParseLabelDecl p))
  else if isLineProc p then (tasmParseProc fuel p).map (Prod.map some id)
  else if isLineInstruction p then (tasmParseInstruction p).map (Prod.map some id)
  else if isLineMeta p then tasmParseMetadata fuel p
  else .ok (none, lineRest 1200 5100 p)

/-- The condition of the loop of `tasm_parse_file`. -/
def fileCond (s : TasmParser × List TasmAst) : Bool := s.1.currentToken.type != .eof

/-- One line of the file. -/
def fileBody [Host] (fuel : Nat) (s : TasmParser × List TasmAst) : Parse (TasmParser × List TasmAst) := do
  let (line, p) ← tasmParseLine fuel s.1
  match line with
  | none => return (p, s.2)
  | some line =>
    let p := if line.isOp .halt then { p with globalHltWarning := false } else p
    return (p, s.2 ++ [line])

/-- `tasm_parse_file`. -/
def tasmParseFile [Host] (fuel : Nat) (p : TasmParser) : Parse (TasmAst × TasmParser) := do
  let (p, lines) ← Loop.run fileCond (fileBody fuel) fuel (tasmParserEat p TokenType.none, [])
  let p := if p.globalHltWarning then
    tasmParserWarn p (cstr "file: there is no " ++ pink "hlt" ++
      cstr " opcode. It may cause possible unpredicted behaivours") else p
  return (.file lines, endOfLine { p with globalHltWarning := true })

end TileVm
