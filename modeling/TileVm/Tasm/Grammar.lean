/-
The language of the assembler, as a parser without error recovery: functions from the tokens to
come to what they parse and the tokens left, undefined where the parser reports an error. It is
the specification that the parser is compared with.
-/
import TileVm.Tasm.ParserSpec

namespace TileVm.Grammar

/-- The tokens to come, without the `TOKEN_EOF`s behind them. -/
abbrev Tokens := List TasmToken

/-- The kind of the first token. -/
def first (ts : Tokens) : TokenType := (ts.headD TasmToken.eof).type

/-- A token of the kind. -/
def expect (type : TokenType) : Tokens → Option (TasmToken × Tokens)
  | [] => none
  | t :: ts => if t.type = type then some (t, ts) else none

/-- A token of the kind, if there is one. -/
def skip (type : TokenType) (ts : Tokens) : Tokens := if first ts = type then ts.tail else ts

/-! ## Literals and operands -/

def isInt (t : TokenType) : Bool := t == .decimalNumber || t == .hexNumber

def isNumber (t : TokenType) : Bool :=
  t == .decimalNumber || t == .floatNumber || t == .hexNumber || t == .binaryNumber

def numLit (negative : Bool) : Tokens → Option (TasmAst × Tokens)
  | [] => none
  | t :: ts => do
    let value ← t.value
    let text := if negative then chr '-' :: value else value
    let v ← numLitValue isLittleEndian t.type text
    some (.number text v, ts)

def charLit (ts : Tokens) : Option (TasmAst × Tokens) := do
  let (_, ts) ← expect .apost ts
  let (c, ts) ← expect .char ts
  let (_, ts) ← expect .apost ts
  some (.char c.value, ts)

def strLit (ts : Tokens) : Option (TasmAst × Tokens) := do
  let (_, ts) ← expect .quota ts
  let (s, ts) ← expect .string ts
  let (_, ts) ← expect .quota ts
  let value ← s.value
  some (.string value (value.takeWhile (· ≠ 0)).length, ts)

def labelCall (ts : Tokens) : Option (TasmAst × Tokens) := do
  let (x, ts) ← expect .id ts
  some (.labelCall x.value, ts)

/-- An optional minus and a number; nothing, or the minus alone, is no error here. -/
def number (ts : Tokens) : Option (Option TasmAst × Tokens) :=
  if isNumber (first (skip .minus ts)) then (numLit (first ts == .minus) (skip .minus ts)).map (Prod.map some id)
  else some (none, skip .minus ts)

/-- A value that has to be there. -/
def needed (parse : Tokens → Option (Option TasmAst × Tokens)) (ts : Tokens) : Option (Option TasmAst × Tokens) :=
  (parse ts).filter fun r => r.1.isSome

def int (ts : Tokens) : Option (Option TasmAst × Tokens) :=
  if isInt (first ts) then (numLit false ts).map (Prod.map some id) else some (none, ts)

def label (ts : Tokens) : Option (Option TasmAst × Tokens) :=
  if first ts = .id then (labelCall ts).map (Prod.map some id) else some (none, ts)

def pushOperand (ts : Tokens) : Option (Option TasmAst × Tokens) :=
  if first ts = .apost then (charLit ts).map (Prod.map some id) else number ts

def jumpOperand (ts : Tokens) : Option (Option TasmAst × Tokens) := if isInt (first ts) then int ts else label ts

def operand : OperandKind → Tokens → Option (Option TasmAst × Tokens)
  | .nothing => fun ts => some (none, ts)
  | .push => needed pushOperand
  | .int => needed int
  | .jump => needed jumpOperand
  | .label => needed label

/-! ## Lines -/

/-- The end of an instruction, a proc or the file. -/
def endOfLine (ts : Tokens) : Option Tokens :=
  match skip .comment ts with
  | [] => some []
  | t :: ts => if t.type = .endline then some ts else none

def instruction : Tokens → Option (TasmAst × Tokens)
  | [] => none
  | t :: ts =>
    match t.type with
    | .op o => do
      let (a, ts) ← operand o.operandKind ts
      let ts ← endOfLine ts
      some (.op o t.value a, ts)
    | _ => none

def isInstruction : TokenType → Bool
  | .op _ => true
  | _ => false

def isLabelDecl : Tokens → Bool
  | x :: c :: _ => x.type == .id && c.type == .colon
  | _ => false

def labelDecl (ts : Tokens) : Option (TasmAst × Tokens) := do
  let (x, ts) ← expect .id ts
  let (_, ts) ← expect .colon ts
  some (.labelDecl x.value, ts)

/-- The kinds of token that start no line. -/
def refused : TokenType → Bool
  | .id | .string | .char | .decimalNumber | .hexNumber | .floatNumber | .binaryNumber => true
  | .colon | .apost | .quota | .none | .cfunction | .cstruct | .tci _ | .endp => true
  | _ => false

/-- Lines up to a token at which to stop, in at most `fuel` turns. -/
def many (stop : TokenType → Bool) (line : Tokens → Option (Option TasmAst × Tokens)) :
    Nat → Tokens → Option (List TasmAst × Tokens)
  | 0, ts => if stop (first ts) then some ([], ts) else none
  | fuel + 1, ts =>
    if stop (first ts) then some ([], ts)
    else do
      let (l, ts) ← line ts
      let (ls, ts) ← many stop line fuel ts
      some (l.toList ++ ls, ts)

/-- The rule for lines: what holds of none, and is kept when a line comes in front. -/
theorem many_rule {stop : TokenType → Bool} {line : Tokens → Option (Option TasmAst × Tokens)}
    {P : Tokens → List TasmAst → Tokens → Prop} (hnil : ∀ ts, stop (first ts) = true → P ts [] ts)
    (hcons : ∀ ts l us ls vs, line ts = some (l, us) → P us ls vs → P ts (l.toList ++ ls) vs) :
    ∀ {fuel : Nat} {ts us : Tokens} {ls : List TasmAst}, many stop line fuel ts = some (ls, us) → P ts ls us
  | 0, ts, us, ls, h => by
    simp only [many] at h
    split at h
    · cases h
      exact hnil ts ‹_›
    · cases h
  | fuel + 1, ts, us, ls, h => by
    simp only [many] at h
    split at h
    · cases h
      exact hnil ts ‹_›
    · simp only [Option.bind_eq_bind, Option.bind_eq_some_iff] at h
      obtain ⟨⟨l, vs⟩, hl, ⟨ls', ws⟩, hm, h⟩ := h
      cases h
      exact hcons ts l vs ls' ws hl (many_rule hnil hcons hm)

/-- The ends of lines: at a token of any other kind nothing is consumed. -/
def blank (ts : Tokens) : Tokens := skip .comment (skip .endline ts)

/-- A line of a proc. -/
def procLine (ts : Tokens) : Option (Option TasmAst × Tokens) :=
  if isLabelDecl ts then (labelDecl ts).map (Prod.map some id)
  else if isInstruction (first ts) then (instruction ts).map (Prod.map some id)
  else if refused (first ts) || [TokenType.proc, .atSign, .data].contains (first ts) then none
  else some (none, blank ts)

/-- The lines of a proc. -/
def procLines : Nat → Tokens → Option (List TasmAst × Tokens) := many (fun t => t == .endp || t == .eof) procLine

def proc (fuel : Nat) (ts : Tokens) : Option (TasmAst × Tokens) := do
  let (_, ts) ← expect .proc ts
  let (x, ts) ← expect .id ts
  let (lines, ts) ← procLines fuel ts
  let (_, ts) ← expect .endp ts
  let ts ← endOfLine ts
  some (.proc x.value lines, ts)

/-! ## Metadata -/

def ctype : Tokens → Option (Byte × Tokens)
  | [] => none
  | t :: ts =>
    match t.type with
    | .tci c => some (c.code, ts)
    | _ => none

/-- The argument types of a function, up to the end of the line, in at most `fuel` turns. -/
def ctypes : Nat → Tokens → Option (List Byte × Tokens)
  | 0, ts => if [TokenType.endline, .eof, .comment].contains (first ts) then some ([], ts) else none
  | fuel + 1, ts =>
    if [TokenType.endline, .eof, .comment].contains (first ts) then some ([], ts)
    else do
      let (c, ts) ← ctype ts
      let (cs, ts) ← ctypes fuel ts
      some (c :: cs, ts)

def cfunction (fuel : Nat) (ts : Tokens) : Option (TasmAst × Tokens) := do
  let (_, ts) ← expect .cfunction ts
  let (rtype, ts) ← ctype ts
  let (f, ts) ← expect .id ts
  let (atypes, ts) ← ctypes fuel ts
  some (.cfunction rtype atypes (atypes.length % 2 ^ 16) f.value, ts)

def cstruct (ts : Tokens) : Option (TasmAst × Tokens) := do
  let (_, ts) ← expect .cstruct ts
  some (.cstruct (cstr "cstruct"), ts)

def dataValue (ts : Tokens) : Option (Option TasmAst × Tokens) :=
  if first ts = .quota then (strLit ts).map (Prod.map some id)
  else if first ts = .apost then (charLit ts).map (Prod.map some id)
  else number ts

def data (ts : Tokens) : Option (TasmAst × Tokens) := do
  let (_, ts) ← expect .data ts
  let (value, ts) ← dataValue ts
  some (.data value, ts)

def metadata (fuel : Nat) (ts : Tokens) : Option (TasmAst × Tokens) := do
  let (_, ts) ← expect .atSign ts
  if first ts = .cfunction then cfunction fuel ts
  else if first ts = .cstruct then cstruct ts
  else if first ts = .data then data ts
  else none

/-! ## Files -/

/-- A line of the file. -/
def line (fuel : Nat) (ts : Tokens) : Option (Option TasmAst × Tokens) :=
  if isLabelDecl ts then (labelDecl ts).map (Prod.map some id)
  else if first ts = .proc then (proc fuel ts).map (Prod.map some id)
  else if isInstruction (first ts) then (instruction ts).map (Prod.map some id)
  else if first ts = .atSign then (metadata fuel ts).map (Prod.map some id)
  else if refused (first ts) then none
  else some (none, blank ts)

/-- The lines of a file. -/
def lines (fuel : Nat) : Tokens → Option (List TasmAst × Tokens) := many (· == .eof) (line fuel) fuel

def file (fuel : Nat) (ts : Tokens) : Option (TasmAst × Tokens) := do
  let (ls, ts) ← lines fuel ts
  let ts ← endOfLine ts
  some (.file ls, ts)

end TileVm.Grammar
