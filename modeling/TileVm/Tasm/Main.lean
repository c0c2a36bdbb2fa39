/-
`main` of the assembler, from the text to the decision to write. The parser's flag and the
translator's flag decide; what the lexer reports sets neither, so a string literal that does not
close is reported and written all the same.
-/
import TileVm.Image.Assembled
import TileVm.Tasm.TranslatorReports

namespace TileVm

/-- What a run printed, and whether it came to `tasm_translator_generate_bin`. -/
structure TasmOutcome where
  lexer : List (Nat × Nat × LexError)
  parser : List ParserReport
  translator : List TranslatorReport
  written : Bool

/-- A stage reported an error: anything but a warning of the parser. -/
def TasmOutcome.ReportsError (o : TasmOutcome) : Prop :=
  o.lexer ≠ [] ∨ (∃ r ∈ o.parser, ∀ m, r ≠ .warning m) ∨ o.translator ≠ []

/-- The ends of `main` on a text. The parser draws the tokens one ahead and stops at `TOKEN_EOF`, so the lexer has read
the whole text by then. -/
inductive TasmMain (text : List Byte) : TasmOutcome → Prop where
  /-- `exit(EXIT_FAILURE)` behind the parser -/
  | refused {ts : List TasmToken} {lx : TasmLexer} {fuel : Nat} {ast : TasmAst} {p : TasmParser}
      (lex : LexRun (tasmLexerInit (marked text)) ts lx) (parse : tasmParseFile fuel (tasmParserInit ts) = .ok (ast, p))
      (err : p.isErr = true) : TasmMain text ⟨lx.reports, p.reports, [], false⟩
  /-- `exit(1)` at a duplicated symbol -/
  | exit {ts : List TasmToken} {lx : TasmLexer} {fuel : Nat} {ast : TasmAst} {p : TasmParser} {r : TranslatorReport}
      (lex : LexRun (tasmLexerInit (marked text)) ts lx) (parse : tasmParseFile fuel (tasmParserInit ts) = .ok (ast, p))
      (ok : p.isErr = false) (duplicated : tasmTranslate ast = .error (.exit r)) :
      TasmMain text ⟨lx.reports, p.reports, [r], false⟩
  /-- the end of `main` -/
  | finish {ts : List TasmToken} {lx : TasmLexer} {fuel : Nat} {ast : TasmAst} {p : TasmParser} {t : TasmTranslator}
      (lex : LexRun (tasmLexerInit (marked text)) ts lx) (parse : tasmParseFile fuel (tasmParserInit ts) = .ok (ast, p))
      (ok : p.isErr = false) (translate : tasmTranslate ast = .ok t) :
      TasmMain text ⟨lx.reports, p.reports, t.reports, !t.symbols.err⟩

/-! ## Programs -/

/-- The text is a program of the assembler's language: a file of the grammar with a value behind every `@data`,
well-scoped and within the tables of the translator. -/
def IsProgram (text : List Byte) : Prop :=
  ∃ ts fuel ast us, LexTokens (tasmLexerInit (marked text)) ts ∧ Grammar.file fuel ts = some (ast, us) ∧ DataGiven ts ∧
    WellScoped ast.items ∧ WithinTables ast.items

/-- The texts that are written are the programs. -/
theorem isProgram_iff {text : List Byte} : IsProgram text ↔ ∃ ast t, Assembles text ast t := by
  constructor
  · rintro ⟨ts, fuel, ast, us, hlex, hfile, hdata, hscoped, hroom⟩
    obtain ⟨p, hparse, hp⟩ := (parse_ok_iff hlex.ne_eof).mpr ⟨us, hfile⟩
    have hnames := wellFormed_of_parse (ids_init fun tok htok hid => (hlex.shortNames tok htok hid).1) hparse hp
    have hcomplete := (complete_iff hlex.texts hlex.ne_eof hparse hp).mpr hdata
    obtain ⟨t, htr, herr⟩ := (translates_ok_iff hcomplete hnames).mpr ⟨hscoped, hroom⟩
    exact ⟨ast, t, ⟨ts, fuel, p, hlex, hparse, hp⟩, htr, herr⟩
  · rintro ⟨ast, t, h⟩
    obtain ⟨ts, fuel, p, hlex, hparse, hp⟩ := h.parses
    obtain ⟨us, hfile⟩ := (parse_ok_iff hlex.ne_eof).mp ⟨p, hparse, hp⟩
    obtain ⟨hscoped, hroom⟩ := (translates_ok_iff h.complete h.idNames).mp ⟨t, h.translates, h.resolved⟩
    exact ⟨ts, fuel, ast, us, hlex, hfile, (complete_iff hlex.texts hlex.ne_eof hparse hp).mp h.complete, hscoped, hroom⟩

/-! ## Errors and the decision to write -/

/-- Every string literal that the lexer opens has known escape sequences only, and a quote before its text is longer than
the line. -/
def LiteralsClose (text : List Byte) : Prop :=
  ∀ lx, LexReach (tasmLexerInit (marked text)) lx → inString lx = true → LiteralCloses lx

theorem lexer_silent_iff {text : List Byte} {ts : List TasmToken} {lx : TasmLexer}
    (h : LexRun (tasmLexerInit (marked text)) ts lx) : lx.reports = [] ↔ LiteralsClose text :=
  (h.reports (.init _)).2

/-- A parser without its flag set has reported warnings only. -/
theorem parser_silent {ts : List TasmToken} {fuel : Nat} {ast : TasmAst} {p : TasmParser} (heof : ∀ t ∈ ts, t.type ≠ .eof)
    (hparse : tasmParseFile fuel (tasmParserInit ts) = .ok (ast, p)) (hp : p.isErr = false) :
    ∀ r ∈ p.reports, ∃ m, r = .warning m := by
  obtain ⟨us, hfile⟩ := (parse_ok_iff heof).mp ⟨p, hparse, hp⟩
  have hagrees := file_agrees heof fuel
  rw [hfile] at hagrees
  obtain ⟨q, hq, hstands⟩ := hagrees
  rw [hparse] at hq
  cases hq
  exact hstands.warned

/-- No error is reported and written if and only if the text is no program, or all its string literals close. -/
theorem errors_stop_writing_iff (text : List Byte) :
    (∀ o, TasmMain text o → o.ReportsError → o.written = false) ↔ (IsProgram text → LiteralsClose text) := by
  constructor
  · intro hall hprogram
    obtain ⟨ast, t, h⟩ := isProgram_iff.mp hprogram
    obtain ⟨ts, fuel, p, hlex, hparse, hp⟩ := h.parses
    obtain ⟨lx, hrun⟩ := hlex.run
    by_contra hopen
    have hreports : lx.reports ≠ [] := fun he => hopen ((lexer_silent_iff hrun).mp he)
    have hwritten := hall _ (.finish hrun hparse hp h.translates) (.inl hreports)
    rw [h.resolved] at hwritten
    cases hwritten
  · rintro hclose o ho herror
    cases ho with
    | refused | exit => rfl
    | finish lex parse ok translate =>
      rename_i ts lx fuel ast p t
      by_contra hwritten
      have herr : t.symbols.err = false := by simpa using hwritten
      have h : Assembles text ast t := ⟨⟨ts, fuel, p, lex.tokens, parse, ok⟩, translate, herr⟩
      rcases herror with hlexer | ⟨r, hr, hparser⟩ | htranslator
      · exact hlexer ((lexer_silent_iff lex).mpr (hclose (isProgram_iff.mpr ⟨ast, t, h⟩)))
      · obtain ⟨m, hm⟩ := parser_silent lex.tokens.ne_eof parse ok r hr
        exact hparser m hm
      · exact htranslator ((translate_bounded h.wellFormed translate).silent herr)

/-- The text `@data "a\q"`, with an escape sequence that the lexer does not know. -/
def unknownEscape : List Byte := cstr "@data \"a\\q\"\n"

def unknownEscapeTokens : List TasmToken :=
  [⟨.atSign, some (cstr "@")⟩, ⟨.data, some (cstr "data")⟩, ⟨.quota, some (cstr "\"")⟩, ⟨.string, some (cstr "a")⟩,
    ⟨.quota, some (cstr "\"")⟩, ⟨.endline, some (cstr "endl")⟩]

/-- Its error is reported, and the file written. -/
theorem error_and_written : ∃ o, TasmMain unknownEscape o ∧ o.ReportsError ∧ o.written = true := by
  have hcheck : (runOf 20 20 (tasmLexerInit (marked unknownEscape))).map (fun r => (r.1, r.2.reports == [])) =
      some (unknownEscapeTokens, false) := by decide +kernel
  obtain ⟨⟨ts, lx⟩, hrun, heq⟩ := Option.map_eq_some_iff.mp hcheck
  obtain ⟨rfl, hreports⟩ := Prod.mk.inj heq
  obtain ⟨ast, p, hparse, hp, htr⟩ : ∃ ast p, tasmParseFile 20 (tasmParserInit unknownEscapeTokens) = .ok (ast, p) ∧
      p.isErr = false ∧ (tasmTranslate ast).okAnd (fun t => !t.symbols.err) = true := ⟨_, _, rfl, rfl, by decide +kernel⟩
  obtain ⟨t, htr, ht⟩ := Except.okAnd_eq_true htr
  exact ⟨_, .finish (runOf_lex hrun) hparse hp htr, .inl (by simpa using hreports), ht⟩

end TileVm
