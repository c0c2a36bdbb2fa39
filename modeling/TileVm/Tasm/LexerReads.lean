/-
The lexer with a log of the places of the source that it reads. Only `tasm_lexer_init`,
`tasm_lexer_advance` and the peek functions read it; the collectors work on the window and advance.
Without the log the definitions are those of the lexer.
-/
import TileVm.Lib.LoggedLoop
import TileVm.Tasm.Lexer

namespace TileVm

/-- A part of the lexer, with the indices into `source_code` that it reads. -/
abbrev LexReads (α : Type) := Logged Nat (Stop Fault) α

/-! ## The primitives -/

/-- What `tasm_lexer_init` reads: the first two characters, and with `strlen` those up to the first NUL. -/
def tasmLexerInitReads (src : List Byte) : List Nat :=
  [0, 0, 1] ++ List.range ((src.takeWhile (· ≠ 0)).length + 1)

/-- `tasm_lexer_advance`, which reads `source_code[++cursor + 1]` when it moves. -/
def tasmLexerAdvanceLogged (lx : TasmLexer) : LexReads TasmLexer :=
  if lx.currentChar ≠ eofChar ∧ lx.cursor < lx.sourceCodeSize then do
    Logged.tell (lx.cursor + 1 + 1)
    pure (tasmLexerAdvance lx)
  else pure (tasmLexerAdvance lx)

/-- `tasm_lexer_peek_upgraded`, which reads `source_code[cursor + peek - 1]`, an index in `size_t`. -/
def tasmLexerPeekUpgradedLogged (lx : TasmLexer) (reset : Bool) : LexReads (Byte × TasmLexer) :=
  if lx.sourceCodeSize ≤ lx.peek + lx.cursor then pure (tasmLexerPeekUpgraded lx reset)
  else do
    let peek := if reset then 0 else lx.peek + 1
    Logged.tell ((lx.cursor + peek + (2 ^ 64 - 1)) % 2 ^ 64)
    pure (tasmLexerPeekUpgraded lx reset)

/-! ## Loops -/

def advanceWhileLogged (p : Byte → Bool) (fuel : Nat) (lx : TasmLexer) : LexReads TasmLexer :=
  Logged.run (fun lx => p lx.currentChar) tasmLexerAdvanceLogged fuel lx

def collectWhileLogged (p : Byte → Bool) (fuel : Nat) (s : TasmLexer × List Byte) : LexReads (TasmLexer × List Byte) :=
  Logged.run (fun s => p s.1.currentChar)
    (fun s => do
      let text ← Logged.lift (tempPut s.2 s.1.currentChar)
      let lx ← tasmLexerAdvanceLogged s.1
      pure (lx, text)) fuel s

/-! ## Collectors -/

def tasmLexerCollectIdLogged (fuel : Nat) (lx : TasmLexer) : LexReads (TasmToken × TasmLexer) := do
  let (lx, text) ← collectWhileLogged isIdChar fuel (lx, [])
  let val ← Logged.lift (tempEnd text)
  pure (⟨wordType val, some val⟩, lx)

def tasmLexerCollectNumberLogged (fuel : Nat) (lx : TasmLexer) : LexReads (TasmToken × TasmLexer) := do
  let (lx, text) ← collectWhileLogged isDigit fuel (lx, [])
  if lx.currentChar = chr '.' then do
    let text ← Logged.lift (tempPut text lx.currentChar)
    let lx ← tasmLexerAdvanceLogged lx
    let (lx, text) ← collectWhileLogged isDigit fuel (lx, text)
    let val ← Logged.lift (tempEnd text)
    pure (⟨.floatNumber, some val⟩, lx)
  else do
    let val ← Logged.lift (tempEnd text)
    pure (⟨.decimalNumber, some val⟩, lx)

def collectPrefixedLogged (p : Byte → Bool) (type : TokenType) (fuel : Nat) (lx : TasmLexer) :
    LexReads (TasmToken × TasmLexer) := do
  let lx ← tasmLexerAdvanceLogged lx
  let lx ← tasmLexerAdvanceLogged lx
  let (lx, text) ← collectWhileLogged p fuel (lx, [])
  let val ← Logged.lift (tempEnd text)
  pure (⟨type, some val⟩, lx)

def tasmLexerCollectCharLogged (lx : TasmLexer) : LexReads (TasmToken × TasmLexer) := do
  let c := lx.currentChar
  let lx ← tasmLexerAdvanceLogged lx
  if lx.currentChar ≠ chr '\'' then do
    let lx ← tasmLexerAdvanceLogged lx
    pure (⟨.none, none⟩, lx)
  else pure (⟨.char, some [c]⟩, lx)

def lineEndLoopLogged (fuel : Nat) (lx : TasmLexer) : LexReads (TasmLexer × Nat) := do
  let first ← tasmLexerPeekUpgradedLogged lx false
  let s ← Logged.run (fun (s : Byte × Nat × TasmLexer) => s.1 != chr '\n' && s.1 != eofChar)
    (fun s => do
      let next ← tasmLexerPeekUpgradedLogged s.2.2 false
      pure (next.1, s.2.1 + 1, next.2)) fuel (first.1, 0, first.2)
  pure (s.2.2, s.2.1)

def strBodyLogged (s : TasmLexer × List Byte) : LexReads (TasmLexer × List Byte) :=
  let (lx, text) := s
  if lx.currentChar = chr '\\' then do
    let lx ← tasmLexerAdvanceLogged lx
    match unescape lx.currentChar with
    | some b => do
      let text ← Logged.lift (tempPut text b)
      let lx ← tasmLexerAdvanceLogged lx
      pure (lx, text)
    | none => do
      let lx ← tasmLexerAdvanceLogged (lx.report (.unknownEscape lx.currentChar))
      pure (lx, text)
  else do
    let text ← Logged.lift (tempPut text lx.currentChar)
    let lx ← tasmLexerAdvanceLogged lx
    pure (lx, text)

def tasmLexerCollectStrLogged (fuel : Nat) (lx : TasmLexer) : LexReads (TasmToken × TasmLexer) := do
  let (lx, lineEnd) ← lineEndLoopLogged fuel lx
  let (_, lx) ← tasmLexerPeekUpgradedLogged lx true
  let (lx, text) ← Logged.run
    (fun (s : TasmLexer × List Byte) => s.1.currentChar != chr '"' && !decide (lineEnd < s.2.length))
    strBodyLogged fuel (lx, [])
  let lx := if lx.currentChar ≠ chr '"' then lx.report .missingQuota else lx
  let val ← Logged.lift (tempEnd text)
  pure (⟨.string, some val⟩, lx)

def lexerCollectOneCharsLogged (fuel : Nat) (lx : TasmLexer) : LexReads (TasmToken × TasmLexer) :=
  let one (type : TokenType) (value : String) : LexReads (TasmToken × TasmLexer) := do
    let lx ← tasmLexerAdvanceLogged lx
    pure (⟨type, some (cstr value)⟩, lx)
  if lx.currentChar = chr '\n' then one .endline "endl"
  else if lx.currentChar = chr ';' then do
    let lx ← advanceWhileLogged (fun c => c != chr '\n' && c != eofChar) fuel lx
    pure (⟨.comment, some (cstr ";")⟩, lx)
  else if lx.currentChar = chr ':' then one .colon ":"
  else if lx.currentChar = chr '\'' then one .apost "'"
  else if lx.currentChar = chr '"' then one .quota "\""
  else if lx.currentChar = chr '@' then one .atSign "@"
  else if lx.currentChar = chr '-' then one .minus "-"
  else if lx.currentChar = eofChar then one .eof "eof"
  else do
    let lx ← tasmLexerAdvanceLogged lx
    pure (⟨.none, none⟩, lx)

def collectTokenLogged (fuel : Nat) (lx : TasmLexer) : LexReads (TasmToken × TasmLexer) :=
  if isAlpha lx.currentChar || lx.currentChar == chr '_' then tasmLexerCollectIdLogged fuel lx
  else if isbinprefix lx.currentChar lx.nextChar then collectPrefixedLogged isBinDigit .binaryNumber fuel lx
  else if ishexprefix lx.currentChar lx.nextChar then collectPrefixedLogged isXDigit .hexNumber fuel lx
  else if isDigit lx.currentChar then tasmLexerCollectNumberLogged fuel lx
  else lexerCollectOneCharsLogged fuel lx

/-- `tasm_lexer_get_next_token`. -/
def tasmLexerGetNextTokenLogged (fuel : Nat) (lx : TasmLexer) : LexReads (TasmToken × TasmLexer) :=
  if inString lx then tasmLexerCollectStrLogged fuel lx
  else if inChar lx then tasmLexerCollectCharLogged lx
  else do
    let lx ← advanceWhileLogged isBlank fuel lx
    collectTokenLogged fuel lx

/-! ## Without the log -/

section Result

variable (fuel : Nat) (lx : TasmLexer)

@[simp] theorem advanceLogged_result : (tasmLexerAdvanceLogged lx).result = .ok (tasmLexerAdvance lx) := by
  unfold tasmLexerAdvanceLogged
  rw [Logged.result_ite]
  exact ite_self _

@[simp] theorem peekLogged_result (reset : Bool) :
    (tasmLexerPeekUpgradedLogged lx reset).result = .ok (tasmLexerPeekUpgraded lx reset) := by
  unfold tasmLexerPeekUpgradedLogged
  rw [Logged.result_ite]
  exact ite_self _

@[simp] theorem advanceWhileLogged_result (p : Byte → Bool) : (advanceWhileLogged p fuel lx).result = advanceWhile p fuel lx := by
  unfold advanceWhileLogged advanceWhile
  rw [Logged.result_run]
  simp only [advanceLogged_result]

@[simp] theorem collectWhileLogged_result (p : Byte → Bool) (s : TasmLexer × List Byte) :
    (collectWhileLogged p fuel s).result = collectWhile p fuel s := by
  unfold collectWhileLogged collectWhile
  rw [Logged.result_run]
  congr 1
  funext s
  simp only [Logged.result_bind, Logged.result_lift, advanceLogged_result, Logged.result_pure]
  cases tempPut s.2 s.1.currentChar <;> rfl

@[simp] theorem collectIdLogged_result : (tasmLexerCollectIdLogged fuel lx).result = tasmLexerCollectId fuel lx := by
  unfold tasmLexerCollectIdLogged tasmLexerCollectId
  simp only [Logged.result_bind, collectWhileLogged_result, Logged.result_lift, Logged.result_pure]
  rfl

@[simp] theorem collectNumberLogged_result :
    (tasmLexerCollectNumberLogged fuel lx).result = tasmLexerCollectNumber fuel lx := by
  unfold tasmLexerCollectNumberLogged tasmLexerCollectNumber
  simp only [Logged.result_bind, collectWhileLogged_result, Logged.result_lift, Logged.result_pure, Logged.result_ite,
    advanceLogged_result]
  rfl

@[simp] theorem collectPrefixedLogged_result (p : Byte → Bool) (type : TokenType) :
    (collectPrefixedLogged p type fuel lx).result = collectPrefixed p type fuel lx := by
  unfold collectPrefixedLogged collectPrefixed
  simp only [Logged.result_bind, collectWhileLogged_result, Logged.result_lift, Logged.result_pure, advanceLogged_result]
  rfl

@[simp] theorem collectCharLogged_result : (tasmLexerCollectCharLogged lx).result = .ok (tasmLexerCollectChar lx) := by
  unfold tasmLexerCollectCharLogged tasmLexerCollectChar
  simp only [Logged.result_bind, Logged.result_pure, Logged.result_ite, advanceLogged_result]
  rw [Except.bind_of_ok rfl]
  by_cases hquote : (tasmLexerAdvance lx).currentChar ≠ chr '\''
  · rw [if_pos hquote, if_pos hquote]
    rfl
  · rw [if_neg hquote, if_neg hquote]

@[simp] theorem lineEndLoopLogged_result : (lineEndLoopLogged fuel lx).result = lineEndLoop fuel lx := by
  unfold lineEndLoopLogged lineEndLoop tasmLexerPeek
  simp only [Logged.result_bind, Logged.result_run, Logged.result_pure, peekLogged_result]
  rfl

@[simp] theorem strBodyLogged_result (s : TasmLexer × List Byte) : (strBodyLogged s).result = strBody s := by
  obtain ⟨lx, text⟩ := s
  unfold strBodyLogged strBody
  simp only [Logged.result_ite, Logged.result_bind, Logged.result_lift, Logged.result_pure, advanceLogged_result]
  by_cases hescape : lx.currentChar = chr '\\'
  · rw [if_pos hescape, if_pos hescape, Except.bind_of_ok rfl]
    cases unescape (tasmLexerAdvance lx).currentChar with
    | none => rw [Logged.result_bind, advanceLogged_result, Except.bind_of_ok rfl, Logged.result_pure]
    | some b =>
      simp only [Logged.result_bind, Logged.result_lift, advanceLogged_result, Logged.result_pure]
      cases tempPut text b <;> rfl
  · rw [if_neg hescape, if_neg hescape]
    cases tempPut text lx.currentChar <;> rfl

@[simp] theorem collectStrLogged_result : (tasmLexerCollectStrLogged fuel lx).result = tasmLexerCollectStr fuel lx := by
  unfold tasmLexerCollectStrLogged tasmLexerCollectStr tasmLexerPeekReset
  simp only [Logged.result_bind, Logged.result_run, Logged.result_lift, Logged.result_pure, lineEndLoopLogged_result,
    peekLogged_result, strBodyLogged_result]
  rfl

@[simp] theorem collectOneCharsLogged_result :
    (lexerCollectOneCharsLogged fuel lx).result = lexerCollectOneChars fuel lx := by
  unfold lexerCollectOneCharsLogged lexerCollectOneChars tasmLexerSkipLine
  simp only [Logged.result_ite, Logged.result_bind, Logged.result_pure, advanceLogged_result, advanceWhileLogged_result]
  rfl

@[simp] theorem collectTokenLogged_result : (collectTokenLogged fuel lx).result = collectToken fuel lx := by
  unfold collectTokenLogged collectToken tasmLexerCollectBinaryNumber tasmLexerCollectHexNumber
  simp only [Logged.result_ite, collectIdLogged_result, collectPrefixedLogged_result, collectNumberLogged_result,
    collectOneCharsLogged_result]

/-- Without its log it is the lexer. -/
theorem getNextTokenLogged_result : (tasmLexerGetNextTokenLogged fuel lx).result = tasmLexerGetNextToken fuel lx := by
  unfold tasmLexerGetNextTokenLogged tasmLexerGetNextToken tasmLexerSkipWhitespace
  simp only [Logged.result_ite, Logged.result_bind, collectStrLogged_result, collectCharLogged_result,
    advanceWhileLogged_result, collectTokenLogged_result]

end Result

end TileVm
