/-
The tokens of printed programs: what each line stands for, and that the lexer reads it so, at any
indentation and with anything behind the line.
-/
import TileVm.Tasm.LexerText
import TileVm.Tasm.ReservedWords

namespace TileVm

/-! ## Words -/

theorem isWord_mnemonic (capital : Bool) (o : OpType) : IsWord (mnemonic capital o) :=
  isWord_reserved (List.mem_of_getElem? (mnemonic_place capital o))

theorem isWord_ctypeName (t : CType) : IsWord (ctypeName t) :=
  isWord_reserved (List.mem_of_getElem? (ctypeName_place t))

/-! ## Tokens of a line -/

/-- The token of a word. -/
def wordToken (w : CStr) : TasmToken := ⟨wordType w, some w⟩

/-- The token of a word of known kind. -/
theorem wordToken_of {w : CStr} {t : TokenType} (h : wordType w = t) : wordToken w = ⟨t, some w⟩ := by
  rw [wordToken, h]

theorem wordToken_keywords : wordToken (cstr "proc") = ⟨.proc, some (cstr "proc")⟩ ∧
    wordToken (cstr "endp") = ⟨.endp, some (cstr "endp")⟩ ∧ wordToken (cstr "cfun") = ⟨.cfunction, some (cstr "cfun")⟩ ∧
    wordToken (cstr "data") = ⟨.data, some (cstr "data")⟩ := by
  obtain ⟨hproc, hendp, hcfun, hdata⟩ := wordType_keywords
  exact ⟨wordToken_of hproc, wordToken_of hendp, wordToken_of hcfun, wordToken_of hdata⟩

def endlineToken : TasmToken := ⟨.endline, some (cstr "endl")⟩

def commentToken : TasmToken := ⟨.comment, some (cstr ";")⟩

def atToken : TasmToken := ⟨.atSign, some (cstr "@")⟩

def minusToken : TasmToken := ⟨.minus, some (cstr "-")⟩

def colonToken : TasmToken := ⟨.colon, some (cstr ":")⟩

def literalTokens (v : Int) : List TasmToken :=
  if v < 0 then [minusToken, ⟨.decimalNumber, some (decimalText v.natAbs)⟩] else [⟨.decimalNumber, some (decimalText v.natAbs)⟩]

def Operand.tokens : {k : OperandKind} → Operand k → List TasmToken
  | _, .nothing => []
  | _, .push v => literalTokens v.value
  | _, .int n => literalTokens n.value
  | _, .jump n => literalTokens n.value
  | _, .jumpLabel x => [wordToken x.text]
  | _, .label x => [wordToken x.text]

def Statement.tokens : Statement → List TasmToken
  | inst i => wordToken (mnemonic i.capital i.op) :: i.operand.tokens
  | label x => [wordToken x.text, colonToken]

def SourceLine.tokens : SourceLine → List TasmToken
  | statement s => s.tokens
  | proc x => [wordToken (cstr "proc"), wordToken x.text]
  | endp => [wordToken (cstr "endp")]
  | cfun rtype x atypes =>
    atToken :: wordToken (cstr "cfun") :: wordToken (ctypeName rtype) :: wordToken x.text ::
      atypes.map fun t => wordToken (ctypeName t)
  | data v => atToken :: wordToken (cstr "data") :: literalTokens v.value

def Content.tokens : Content → List TasmToken
  | blank => []
  | comment _ _ => [commentToken]
  | line l => l.tokens

/-- The tokens of a text in rows. -/
def rowsTokens (rows : List Row) (last : Row) : List TasmToken :=
  rows.flatMap (fun r => r.content.tokens ++ [endlineToken]) ++ last.content.tokens

/-! ## Reading a line -/

section Reading

variable {ws us : List Byte}

theorem no_blanks : ∀ c ∈ ([] : List Byte), isBlank c = true := by simp

theorem one_blank : ∀ c ∈ [chr ' '], isBlank c = true := by decide

/-- A word in front of a character that ends it. -/
theorem space_ends (us : List Byte) : isIdChar ((chr ' ' :: us).headD 0) = false := rfl

theorem IsWord.lexes {w : CStr} (h : IsWord w) (hws : ∀ c ∈ ws, isBlank c = true) (hus : isIdChar (us.headD 0) = false) :
    Lexes (ws ++ (w ++ us)) [wordToken w] us :=
  lexes_word hws h.start h.chars h.short hus

theorem EndsRow.not_id (h : EndsRow us) : isIdChar (us.headD 0) = false := by
  rcases h with he | he <;> rw [he] <;> decide

theorem lexes_literal (hws : ∀ c ∈ ws, isBlank c = true) {v : IntLit} (hends : EndsRow us) :
    Lexes (ws ++ (literal v.value ++ us)) (literalTokens v.value) us := by
  have hshort : (decimalText v.value.natAbs).length ≤ 127 := by
    have := decimal_length (n := v.value.natAbs) (by have := v.lower; have := v.upper; omega)
    omega
  have hnumber {ws : List Byte} (hws : ∀ c ∈ ws, isBlank c = true) :=
    lexes_number hws (decimal_ne_nil v.value.natAbs) (decimal_digits _) hshort hends.number
  unfold literal literalTokens
  split
  · exact (lexes_one hws (by simp [oneChars, minusToken])).trans (hnumber no_blanks)
  · exact hnumber hws

/-- Every operand that is there is separated by a blank. -/
theorem Operand.lexes {k : OperandKind} (a : Operand k) (hends : EndsRow us) : Lexes (a.text ++ us) a.tokens us := by
  cases a with
  | nothing =>
    exact Lexes.refl us
  | push v => exact lexes_literal one_blank hends
  | int n => exact lexes_literal one_blank hends
  | jump n => exact lexes_literal one_blank hends
  | jumpLabel x => exact x.isWord.lexes one_blank hends.not_id
  | label x => exact x.isWord.lexes one_blank hends.not_id

theorem Operand.text_head {k : OperandKind} (a : Operand k) (hends : EndsRow us) :
    isIdChar ((a.text ++ us).headD 0) = false := by
  cases a with
  | nothing => exact hends.not_id
  | _ => rfl

theorem Statement.lexes (s : Statement) (hws : ∀ c ∈ ws, isBlank c = true) (hends : EndsRow us) :
    Lexes (ws ++ (s.text ++ us)) s.tokens us := by
  cases s with
  | inst i =>
    unfold Statement.text Statement.tokens
    rw [List.append_assoc]
    exact ((isWord_mnemonic i.capital i.op).lexes hws (i.operand.text_head hends)).trans (i.operand.lexes hends)
  | label x =>
    unfold Statement.text Statement.tokens
    rw [List.append_assoc]
    exact (x.isWord.lexes hws rfl).trans (lexes_one no_blanks (by simp [oneChars, colonToken]))

theorem ctypes_head (atypes : List CType) (hends : EndsRow us) :
    isIdChar ((atypes.flatMap (fun t => chr ' ' :: ctypeName t) ++ us).headD 0) = false := by
  cases atypes with
  | nil => exact hends.not_id
  | cons t atypes => rfl

/-- The argument types, each behind a blank. -/
theorem lexes_ctypes (atypes : List CType) (hends : EndsRow us) :
    Lexes (atypes.flatMap (fun t => chr ' ' :: ctypeName t) ++ us) (atypes.map fun t => wordToken (ctypeName t)) us := by
  induction atypes with
  | nil =>
    exact Lexes.refl us
  | cons t atypes ih =>
    have hfirst := (isWord_ctypeName t).lexes one_blank (ctypes_head atypes hends)
    rw [List.flatMap_cons, List.map_cons, List.append_assoc]
    exact hfirst.trans ih

theorem SourceLine.lexes (l : SourceLine) (hws : ∀ c ∈ ws, isBlank c = true) (hends : EndsRow us) :
    Lexes (ws ++ (l.text ++ us)) l.tokens us := by
  have hat : (chr '@', atToken) ∈ oneChars := by simp [oneChars, atToken]
  cases l with
  | statement s => exact s.lexes hws hends
  | proc x =>
    have hproc : IsWord (cstr "proc") := by decide
    have hline := (hproc.lexes hws (space_ends (x.text ++ us))).trans
      (x.isWord.lexes one_blank hends.not_id)
    simpa [SourceLine.text, SourceLine.tokens] using hline
  | endp =>
    have hendp : IsWord (cstr "endp") := by decide
    exact hendp.lexes hws hends.not_id
  | cfun rtype x atypes =>
    have hcfun : IsWord (cstr "cfun") := by decide
    have hargs := lexes_ctypes atypes hends
    have hname := x.isWord.lexes one_blank (ctypes_head atypes hends)
    have hline := (lexes_one hws hat).trans ((hcfun.lexes no_blanks (space_ends _)).trans
      (((isWord_ctypeName rtype).lexes one_blank (space_ends _)).trans (hname.trans hargs)))
    simpa [SourceLine.text, SourceLine.tokens] using hline
  | data v =>
    have hdata : IsWord (cstr "data") := by decide
    have hline := (lexes_one hws hat).trans ((hdata.lexes no_blanks (space_ends _)).trans
      (lexes_literal one_blank (v := v) hends))
    simpa [SourceLine.text, SourceLine.tokens] using hline

/-- A row with its newline. -/
theorem Row.lexes (r : Row) : Lexes (r.text ++ chr '\n' :: us) (r.content.tokens ++ [endlineToken]) us := by
  have hnewline {ws : List Byte} (hws : ∀ c ∈ ws, isBlank c = true) : Lexes (ws ++ chr '\n' :: us) [endlineToken] us :=
    lexes_one hws (by simp [oneChars, endlineToken])
  have hends : EndsRow (chr '\n' :: us) := .inl rfl
  unfold Row.text
  rw [List.append_assoc]
  cases r.content with
  | blank => exact hnewline r.blanks
  | comment text ends => exact (lexes_comment r.blanks ends hends).trans (hnewline no_blanks)
  | line l => exact (l.lexes r.blanks hends).trans (hnewline no_blanks)

/-- The last row, with the end of the text behind it. -/
theorem Row.lexes_last (r : Row) {lx : TasmLexer} (h : Reads (r.text ++ [eofChar, 0]) lx) :
    LexTokens lx r.content.tokens := by
  have hends : EndsRow [eofChar, 0] := .inr rfl
  have hline {ts : List TasmToken} (hts : Lexes (r.indent ++ (r.content.text ++ [eofChar, 0])) ts [eofChar, 0]) :
      LexTokens lx ts := by
    obtain ⟨lx', hlx', hcalls⟩ := hts lx (by simpa [Row.text] using h)
    simpa using hcalls.tokens (Reads.tokens_nil no_blanks hlx')
  cases hcontent : r.content with
  | blank =>
    rw [Row.text, hcontent, Content.text, List.append_nil] at h
    exact h.tokens_nil r.blanks
  | comment text ends =>
    refine hline ?_
    rw [hcontent]
    exact lexes_comment r.blanks ends hends
  | line l =>
    refine hline ?_
    rw [hcontent]
    exact l.lexes r.blanks hends

/-- All rows. -/
theorem rows_lexes (rows : List Row) (last : Row) {lx : TasmLexer} (h : Reads (rowsText rows last ++ [eofChar, 0]) lx) :
    LexTokens lx (rowsTokens rows last) := by
  induction rows generalizing lx with
  | nil => exact last.lexes_last h
  | cons r rows ih =>
    have hrow : Lexes (r.text ++ chr '\n' :: (rowsText rows last ++ [eofChar, 0])) (r.content.tokens ++ [endlineToken])
      (rowsText rows last ++ [eofChar, 0]) := r.lexes
    obtain ⟨lx', hlx', hcalls⟩ := hrow lx (by simpa [rowsText] using h)
    simpa [rowsTokens] using hcalls.tokens (ih hlx')

end Reading

/-! ## The beginning of the text -/

/-- At the beginning of a text that starts with no apostrophe no literal is scanned. -/
theorem reads_init {text : CStr} (hhead : (text ++ [eofChar, 0]).headD 0 ≠ chr '\'') :
    Reads (text ++ [eofChar, 0]) (tasmLexerInit (marked text)) := by
  obtain ⟨c, cs, hc⟩ : ∃ c cs, text ++ [eofChar, 0] = c :: cs := List.exists_cons_of_ne_nil (by simp)
  have hprev : (tasmLexerInit (marked text)).prevChar = c ∧ (tasmLexerInit (marked text)).currentChar = c := by
    unfold marked
    rw [hc]
    exact ⟨rfl, rfl⟩
  refine ⟨.init _, rfl, ?_, ?_⟩
  · unfold inString
    rw [hprev.1, hprev.2]
    simp
  · unfold inChar
    rw [hc] at hhead
    have hne : c ≠ chr '\'' := hhead
    rw [hprev.1, beq_false_of_ne hne]
    rfl

theorem IsWord.head {w us : CStr} (hw : IsWord w) : (w ++ us).headD 0 ≠ chr '\'' := by
  have hstart : ∀ c, (isAlpha c || c == chr '_') = true → c ≠ chr '\'' := by decide
  cases w with
  | nil => cases hw.start
  | cons c w => exact hstart c hw.start

theorem SourceLine.head (l : SourceLine) {us : CStr} : (l.text ++ us).headD 0 ≠ chr '\'' := by
  have hother {c : Byte} {cs : CStr} (hc : c ≠ chr '\'') : (c :: cs).headD 0 ≠ chr '\'' := hc
  cases l with
  | statement s =>
    cases s with
    | inst i =>
      simp only [SourceLine.text, Statement.text, List.append_assoc]
      exact (isWord_mnemonic i.capital i.op).head
    | label x =>
      simp only [SourceLine.text, Statement.text, List.append_assoc]
      exact x.isWord.head
  | proc x => exact hother (c := chr 'p') (by decide)
  | endp => exact hother (c := chr 'e') (by decide)
  | cfun rtype x atypes => exact hother (c := chr '@') (by decide)
  | data v => exact hother (c := chr '@') (by decide)

/-- No row starts with an apostrophe, which the lexer would take for the one before a literal. -/
theorem Row.head (r : Row) {us : CStr} (hus : us.headD 0 ≠ chr '\'') : (r.text ++ us).headD 0 ≠ chr '\'' := by
  have hblank : ∀ c, isBlank c = true → c ≠ chr '\'' := by decide
  unfold Row.text
  rcases hindent : r.indent with _ | ⟨c, cs⟩
  · cases r.content with
    | blank => exact hus
    | comment text ends => exact show chr ';' ≠ chr '\'' by decide
    | line l => exact l.head
  · exact hblank c (r.blanks c (by simp [hindent]))

/-- A text in rows is read as the tokens of the rows. -/
theorem lexTokens_rows (rows : List Row) (last : Row) :
    LexTokens (tasmLexerInit (marked (rowsText rows last))) (rowsTokens rows last) := by
  refine rows_lexes rows last (reads_init ?_)
  cases rows with
  | nil => exact last.head (by decide)
  | cons r rows =>
    have hnewline : (chr '\n' :: (rowsText rows last ++ [eofChar, 0])).headD 0 ≠ chr '\'' := show chr '\n' ≠ chr '\'' by decide
    simpa [rowsText] using r.head hnewline

end TileVm
