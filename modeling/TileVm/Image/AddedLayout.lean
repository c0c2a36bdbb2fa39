/-
Whether the layout at the end of a line matters. Blanks and a comment behind the last token of a line
change neither whether a source is accepted nor the program, except behind a closing quote: there the
lexer takes them for another literal, and the parser refuses it.
-/
import TileVm.Image.Assembled
import TileVm.Tasm.LayoutRuns

namespace TileVm

variable {text text' before w rest : List Byte} {ts us : List TasmToken} {ast : TasmAst} {t : TasmTranslator}

/-- The assembler accepts the text and makes this program of it: the opcodes, the constants and the declared functions. -/
def Produces (text : List Byte) (p : TvmProgram) : Prop := ∃ ast t, Assembles text ast t ∧ t.program = p

theorem Assembles.file (h : Assembles text ast t) :
    ∃ ts fuel vs, LexTokens (tasmLexerInit (marked text)) ts ∧ Grammar.file fuel ts = some (ast, vs) ∧ Quoted ts := by
  obtain ⟨ts, fuel, p, hlex, hparse, hp⟩ := h.parses
  obtain ⟨vs, hfile⟩ := (parse_ok_iff hlex.ne_eof).mp ⟨p, hparse, hp⟩
  exact ⟨ts, fuel, vs, hlex, hfile, file_quoted hlex.ne_eof hfile⟩

/-- Comments at the ends of lines do not matter. -/
theorem Assembles.noted {fuel : Nat} {vs : List TasmToken} (h : Assembles text ast t) (hfile : Grammar.file fuel ts = some (ast, vs))
    (hus : LexTokens (tasmLexerInit (marked text')) us) (hnoted : Noted true ts us) : Assembles text' ast t := by
  obtain ⟨ws, hfile'⟩ := file_noted hnoted hfile
  obtain ⟨p, hparse, hp⟩ := (parse_ok_iff hus.ne_eof).mpr ⟨ws, hfile'⟩
  exact ⟨⟨us, 2 * fuel + 1, p, hus, hparse, hp⟩, h.translates, h.resolved⟩

theorem Addition.assembles (h : Addition before w rest) (hends : ¬ EndsLiteral before rest) :
    Assembles (before ++ w ++ rest) ast t ↔ Assembles (before ++ rest) ast t := by
  obtain ⟨hadded, hremoved⟩ := h.tokens hends
  constructor
  · intro ha
    obtain ⟨us, fuel, vs, hlex, hfile, hquoted⟩ := ha.file
    obtain ⟨ts, hts, hnoted⟩ := hremoved us hlex hquoted
    exact ha.noted hfile hts hnoted.symm
  · intro ha
    obtain ⟨ts, fuel, vs, hlex, hfile, hquoted⟩ := ha.file
    obtain ⟨us, hus, hnoted⟩ := hadded ts hlex hquoted
    exact ha.noted hfile hus hnoted

theorem Addition.refused (h : Addition before w rest) (hends : EndsLiteral before rest) :
    ¬ Assembles (before ++ w ++ rest) ast t := by
  intro ha
  obtain ⟨us, fuel, vs, hlex, hfile, hquoted⟩ := ha.file
  exact h.quote hends hlex hquoted

/-- What is added at the end of a line, outside a literal, changes neither whether the source is accepted nor its program, if
and only if the source is rejected anyhow or the line does not end with a quote. -/
theorem added_layout_iff (h : Addition before w rest) :
    (∀ p, Produces (before ++ w ++ rest) p ↔ Produces (before ++ rest) p) ↔
      ((∃ p, Produces (before ++ rest) p) → ¬ EndsLiteral before rest) := by
  constructor
  · rintro hsame ⟨p, hp⟩ hends
    obtain ⟨ast, t, ha, -⟩ := (hsame p).mpr hp
    exact h.refused hends ha
  · intro hclear p
    by_cases hends : EndsLiteral before rest
    · refine iff_of_false ?_ fun hp => hclear ⟨p, hp⟩ hends
      rintro ⟨ast, t, ha, -⟩
      exact h.refused hends ha
    · exact exists_congr fun ast => exists_congr fun t => and_congr_left' (h.assembles hends)

/-- A text without quotes has no literals. -/
theorem not_inLiteral (hlex : LexTokens (tasmLexerInit (marked (before ++ rest))) ts) (hts : ∀ t ∈ ts, isQuote t.type = false) :
    ¬ InLiteral before rest := by
  rintro ⟨us, lx, b, hcalls, -, hopen, -⟩
  obtain ⟨vs, rfl, -⟩ := hcalls.tokens_rest hlex
  have hnone (us : List TasmToken) (hus : ∀ t ∈ us, isQuote t.type = false) : openQuote us = none := by
    unfold openQuote
    induction us with
    | nil => rfl
    | cons u us ih =>
      rw [List.foldl_cons, quoteStep, hus u (by simp)]
      exact ih fun t ht => hus t (by simp [ht])
  exact hopen (hnone us fun t ht => hts t (by simp [ht]))

/-- The text `hlt`, with a comment. -/
theorem hlt_added : Addition (cstr "hlt") (cstr " ; end") (cstr "\n") := by
  obtain ⟨⟨ts, lx⟩, hrun, hts⟩ := Option.map_eq_some_iff.mp
    (show (runOf 10 10 (tasmLexerInit (marked (cstr "hlt" ++ cstr "\n")))).map (·.1) =
      some [⟨.op .halt, some (cstr "hlt")⟩, ⟨.endline, some (cstr "endl")⟩] by decide +kernel)
  have hts : ts = _ := hts
  subst hts
  refine ⟨?_, by decide, .inr rfl, not_inLiteral (runOf_lex hrun).tokens (by decide)⟩
  have hlayout : Layout ([chr ' '] ++ chr ';' :: cstr " end") := .comment (by decide) (by decide)
  exact hlayout

theorem added_layout_hlt : (∀ p, Produces (cstr "hlt" ++ cstr " ; end" ++ cstr "\n") p ↔ Produces (cstr "hlt" ++ cstr "\n") p) ↔
    ((∃ p, Produces (cstr "hlt" ++ cstr "\n") p) → ¬ EndsLiteral (cstr "hlt") (cstr "\n")) :=
  added_layout_iff hlt_added

/-- The text `push 'a'`. -/
def pushA : List Byte := cstr "push 'a'"

def pushATokens : List TasmToken :=
  [⟨.op .push, some (cstr "push")⟩, ⟨.apost, some (cstr "'")⟩, ⟨.char, some (cstr "a")⟩, ⟨.apost, some (cstr "'")⟩,
    ⟨.endline, some (cstr "endl")⟩]

def pushAAst : TasmAst := .file [.op .push (some (cstr "push")) (some (.char (some (cstr "a"))))]

theorem pushA_assembles : ∃ t, Assembles (pushA ++ cstr "\n") pushAAst t :=
  assembles_of_run 20 (show (runOf 20 20 _).map (·.1) = some pushATokens by decide +kernel) ⟨_, rfl, rfl⟩ (by decide +kernel)

/-- The calls on its line, and one more. -/
theorem pushA_calls : ∃ l₁ l₂ l₃ l₄ l₅,
    LexCall (tasmLexerInit (marked (pushA ++ cstr "\n"))) ⟨.op .push, some (cstr "push")⟩ l₁ ∧
    LexCall l₁ ⟨.apost, some (cstr "'")⟩ l₂ ∧ LexCall l₂ ⟨.char, some (cstr "a")⟩ l₃ ∧
    LexCall l₃ ⟨.apost, some (cstr "'")⟩ l₄ ∧ LexCall l₄ ⟨.endline, some (cstr "endl")⟩ l₅ ∧
    remaining l₂ = cstr "a'" ++ marked (cstr "\n") ∧ remaining l₄ = marked (cstr "\n") ∧
    inString l₂ = false ∧ inString l₃ = false ∧ inChar l₃ = false ∧
    remaining l₃ = cstr "'" ++ marked (cstr "\n") ∧ l₄.prevChar = chr '\'' ∧ l₅.currentChar = eofChar :=
  ⟨_, _, _, _, _, ⟨10, rfl⟩, ⟨10, rfl⟩, ⟨10, rfl⟩, ⟨10, rfl⟩, ⟨10, rfl⟩, rfl, rfl, rfl, rfl, rfl, rfl, rfl, rfl⟩

/-- The calls begin with the one that is known. -/
theorem LexCalls.head {lx lx₁ lx' : TasmLexer} {tok : TasmToken} (h : LexCalls lx ts lx') (hcall : LexCall lx tok lx₁) :
    ts = [] ∧ lx' = lx ∨ ∃ us, ts = tok :: us ∧ LexCalls lx₁ us lx' := by
  cases h with
  | nil => exact .inl ⟨rfl, rfl⟩
  | cons call ne rest =>
    obtain ⟨rfl, rfl⟩ := call.unique hcall
    exact .inr ⟨_, rfl, rest⟩

/-- Its literal is closed at the end of the line. -/
theorem pushA_added : Addition pushA (cstr " ") (cstr "\n") := by
  refine ⟨.blanks (by decide), by decide, .inr rfl, ?_⟩
  obtain ⟨l₁, l₂, l₃, l₄, l₅, c₁, c₂, c₃, c₄, c₅, hrem₂, -, hstr₂, hstr₃, hchar₃, hrem₃, -, heof⟩ := pushA_calls
  rintro ⟨ts, lx, b, h₀, hrem, hopen, hgoes⟩
  obtain ⟨rfl, -⟩ | ⟨ts, rfl, h₁⟩ := h₀.head c₁
  · exact hopen rfl
  obtain ⟨rfl, -⟩ | ⟨ts, rfl, h₂⟩ := h₁.head c₂
  · exact hopen rfl
  obtain ⟨rfl, rfl⟩ | ⟨ts, rfl, h₃⟩ := h₂.head c₃
  · -- behind the opening quote
    obtain rfl := List.append_cancel_right (hrem₂.symm.trans hrem)
    rcases hgoes with hnil | ⟨hscan, hin⟩
    · exact absurd hnil (by decide)
    · refine hin ?_
      rw [StaysIn, hstr₂, if_neg (by decide), if_pos (hscan.resolve_left (by simp [hstr₂]))]
      decide
  obtain ⟨rfl, rfl⟩ | ⟨ts, rfl, h₄⟩ := h₃.head c₄
  · -- in front of the closing one
    obtain rfl := List.append_cancel_right (hrem₃.symm.trans hrem)
    rcases hgoes with hnil | ⟨hscan, -⟩
    · exact absurd hnil (by decide)
    · simp [hstr₃, hchar₃] at hscan
  obtain ⟨rfl, -⟩ | ⟨ts, rfl, h₅⟩ := h₄.head c₅
  · exact hopen rfl
  cases h₅ with
  | nil => exact hopen rfl
  | cons call ne =>
    obtain ⟨rfl, -⟩ := call.unique ⟨0, getNextToken_eof 0 heof⟩
    exact ne rfl

/-- A blank behind the closing quote, and the source is rejected. -/
theorem blank_behind_quote : Addition pushA (cstr " ") (cstr "\n") ∧ (∃ p, Produces (pushA ++ cstr "\n") p) ∧
    ¬ ∃ p, Produces (pushA ++ cstr " " ++ cstr "\n") p := by
  obtain ⟨t, ht⟩ := pushA_assembles
  refine ⟨pushA_added, ⟨t.program, _, t, ht, rfl⟩, ?_⟩
  rintro ⟨p, ast, t, h, -⟩
  obtain ⟨l₁, l₂, l₃, l₄, l₅, c₁, c₂, c₃, c₄, -, -, hrem₄, -, -, -, -, hprev, -⟩ := pushA_calls
  have hcalls : LexCalls (tasmLexerInit (marked (pushA ++ cstr "\n"))) (pushATokens.take 3 ++ [⟨.apost, some (cstr "'")⟩]) l₄ :=
    .cons c₁ (by simp) (.cons c₂ (by simp) (.cons c₃ (by simp) (.cons c₄ (by simp) (.nil l₄))))
  exact pushA_added.refused ⟨_, _, l₄, hcalls, hrem₄, by simp, .inr hprev⟩ h

end TileVm
