/-
Progress of the parser. A call of `tasm_parse_line` or `tasm_parse_proc_line` consumes a token
unless its current token is of a stuck kind, and then it changes nothing; so the parser terminates,
with every such call consuming, exactly when no call is made at a stuck token.
-/
import TileVm.Tasm.ParserSpec

namespace TileVm

/-! ## Stuck lines -/

theorem procLine_stuck {p : TasmParser} (h : ProcLineStuck p.currentToken.type) :
    tasmParseProcLine p = .ok (none, p) := by
  simp only [ProcLineStuck, List.mem_cons, List.not_mem_nil, or_false] at h
  rcases h with h | h | h | h | h <;>
    simp [tasmParseProcLine, isLineLabelDecl, isLineInstruction, globalOnly, errIf, isLineProc, isLineMeta, lineRest,
      isUnexpected, isLineCinterfaceToken, isTokenCtype, isLineEndp, eatIf, TokenType.code, h]

theorem line_stuck (fuel : Nat) {p : TasmParser} (h : LineStuck p.currentToken.type) :
    tasmParseLine fuel p = .ok (none, p) := by
  simp only [LineStuck, ProcLineStuck, List.mem_cons, List.not_mem_nil, or_false] at h
  rcases h with h | h | h | h | h | h <;>
    simp [tasmParseLine, isLineLabelDecl, isLineInstruction, errIf, isLineProc, isLineMeta, lineRest,
      isUnexpected, isLineCinterfaceToken, isTokenCtype, isLineEndp, eatIf, TokenType.code, h]

/-! ## Loops that halt -/

/-- A crash on a `NULL` text is the only failure of a function without loops. -/
def NullText (e : Stop Fault) : Prop := e = .fault .nullPointer

/-- A failure of a function with loops. -/
def FuelOrNull (e : Stop Fault) : Prop := e = .fuel ∨ e = .fault .nullPointer

theorem nullText : NullText (.fault .nullPointer) := rfl

theorem fuelOrNull_null : FuelOrNull (.fault .nullPointer) := .inr rfl

theorem fuelOrNull_fuel : FuelOrNull .fuel := .inl rfl

/-- No condition on the names. -/
def AnyName (_ : Option CStr) : Prop := True

theorem anyName_ids (p : TasmParser) : Ids AnyName p := fun _ _ _ => trivial

theorem ne_fuel {α : Type} {x : Parse α} {Q : α → Prop} (h : x.Post NullText Q) : x ≠ .error .fuel :=
  fun he => nomatch (h.of_error he : NullText .fuel)

theorem argBody_lt {s s' : TasmParser × List Byte × Nat} (hc : argCond s = true) (h : argBody s = .ok s') :
    s'.1.pending < s.1.pending := by
  have hne : s.1.currentToken.type ≠ .eof := by
    simp only [argCond, Bool.and_eq_true, bne_iff_ne] at hc
    exact hc.1.2
  cases h
  cases hty : isTokenCtype s.1 with
  | true => exact tasmParserEat_lt rfl hne
  | false =>
    -- the mismatch leaves the token where it is
    have hcode : tasmParserEat s.1 4100 = { s.1.report (.unexpected s.1.currentToken 4100) with isErr := true } := by
      have := s.1.currentToken.type.code_lt
      rw [tasmParserEat, if_pos (by omega)]
    rw [hcode]
    exact tasmParserEat_lt (p := { s.1.report (.unexpected s.1.currentToken 4100) with isErr := true }) rfl hne

theorem cfunction_halts {fuel : Nat} {p : TasmParser} (h : p.pending < fuel) :
    tasmParseCfunction fuel p ≠ .error .fuel := by
  have hstep (s : TasmParser × List Byte × Nat) (_ : True) (hc : argCond s = true) :
      argBody s ≠ .error .fuel ∧ ∀ s', argBody s = .ok s' → True ∧ s'.1.pending < s.1.pending :=
    ⟨(fun he => nomatch he), fun s' hs' => ⟨trivial, argBody_lt hc hs'⟩⟩
  intro he
  unfold tasmParseCfunction at he
  rcases Except.bind_error he with he | ⟨s, -, he⟩
  · refine Loop.run_halts (fun _ => True) (fun s => s.1.pending) hstep fuel _ trivial ?_ he
    refine Nat.lt_of_le_of_lt ?_ h
    exact ((((Moves.eat p _).trans (expectCtype (by omega)).1).trans (Moves.eat _ _)).trans (Moves.eat _ _)).pending
  · cases he

theorem metadata_halts {fuel : Nat} {p : TasmParser} (h : p.pending < fuel) :
    tasmParseMetadata fuel p ≠ .error .fuel := by
  unfold tasmParseMetadata
  dsimp only
  split
  · exact fun he => cfunction_halts (Nat.lt_of_le_of_lt (Moves.eat p _).pending h) (Except.map_eq_error he)
  split
  · exact fun he => nomatch he
  split
  · exact fun he => ne_fuel (data_spec (N := AnyName) nullText _) (Except.map_eq_error he)
  · exact fun he => nomatch he

/-- The lines of a proc come to an end when none of them is stuck. -/
theorem proc_halts {fuel : Nat} {p : TasmParser} (h : p.pending < fuel)
    (hok : ∀ s, Loop.Enters procCond procBody (procStart p, []) s → ¬ ProcLineStuck s.1.currentToken.type) :
    tasmParseProc fuel p ≠ .error .fuel := by
  let I (s : TasmParser × List TasmAst) : Prop :=
    (procCond s = true → Loop.Enters procCond procBody (procStart p, []) s) ∧
      (s.1.isErr = false → ∀ l ∈ s.2, ProcLine AnyName l)
  have hstep (s : TasmParser × List TasmAst) (hI : I s) (hc : procCond s = true) :
      procBody s ≠ .error .fuel ∧ ∀ s', procBody s = .ok s' → I s' ∧ s'.1.pending < s.1.pending := by
    have hne : s.1.currentToken.type ≠ .eof := by
      simp only [procCond, Bool.and_eq_true, bne_iff_ne] at hc
      exact hc.2
    have henter := hI.1 hc
    have hspec := procBody_spec nullText (anyName_ids s.1) hI.2
    refine ⟨ne_fuel hspec, fun s' hs' => ?_⟩
    obtain ⟨hp, hlt⟩ := hspec.of_ok hs'
    exact ⟨⟨fun hc' => .turn henter hs' hc', hp.shape⟩, hlt hne (hok s henter)⟩
  intro he
  unfold tasmParseProc at he
  rcases Except.bind_error he with he | ⟨s, -, he⟩
  · refine Loop.run_halts I (fun s => s.1.pending) hstep fuel _ ⟨fun hc => .first hc, by simp⟩ ?_ he
    exact Nat.lt_of_le_of_lt ((Moves.eat p _).trans (Moves.eat _ _)).pending h
  · cases he

theorem line_halts {fuel : Nat} {p : TasmParser} (h : p.pending < fuel)
    (hok : isLineProc p = true → ∀ s, Loop.Enters procCond procBody (procStart p, []) s →
      ¬ ProcLineStuck s.1.currentToken.type) :
    tasmParseLine fuel p ≠ .error .fuel := by
  unfold tasmParseLine
  split
  · exact fun he => nomatch he
  split
  · rename_i hproc
    exact fun he => proc_halts h (hok hproc) (Except.map_eq_error he)
  split
  · rename_i hinst
    exact fun he => ne_fuel (instruction_spec nullText (anyName_ids p) hinst) (Except.map_eq_error he)
  split
  · exact metadata_halts h
  · exact fun he => nomatch he

/-! ## The calls of the line parsers -/

/-- The state in which `tasm_parse_file` enters its loop. -/
def fileStart (ts : List TasmToken) : TasmParser := tasmParserEat (tasmParserInit ts) TokenType.none

/-- `tasm_parse_file` calls `tasm_parse_line` in this state, when the lexer returns `ts` and from then
on `TOKEN_EOF`. -/
def LineCall (ts : List TasmToken) (p : TasmParser) : Prop :=
  ∃ fuel lines, Loop.Enters fileCond (fileBody fuel) (fileStart ts, []) (p, lines)

/-- `tasm_parse_proc` calls `tasm_parse_proc_line` in this state. -/
def ProcLineCall (ts : List TasmToken) (p : TasmParser) : Prop :=
  ∃ p₀, LineCall ts p₀ ∧ isLineProc p₀ = true ∧ ∃ lines, Loop.Enters procCond procBody (procStart p₀, []) (p, lines)

theorem LineCall.ne_eof {ts : List TasmToken} {p : TasmParser} (h : LineCall ts p) :
    p.currentToken.type ≠ .eof := by
  obtain ⟨fuel, lines, h⟩ := h
  simpa [fileCond] using h.cond_true

theorem ProcLineCall.ne_eof {ts : List TasmToken} {p : TasmParser} (h : ProcLineCall ts p) :
    p.currentToken.type ≠ .eof := by
  obtain ⟨p₀, -, -, lines, h⟩ := h
  have hc := h.cond_true
  simp only [procCond, Bool.and_eq_true, bne_iff_ne] at hc
  exact hc.2

/-- No call of a line parser is made at a token at which it is stuck. -/
structure NeverStuck (ts : List TasmToken) : Prop where
  line : ∀ p, LineCall ts p → ¬ LineStuck p.currentToken.type
  procLine : ∀ p, ProcLineCall ts p → ¬ ProcLineStuck p.currentToken.type

theorem NeverStuck.file_halts {ts : List TasmToken} (h : NeverStuck ts) {fuel : Nat}
    (hfuel : (tasmParserInit ts).pending < fuel) : tasmParseFile fuel (tasmParserInit ts) ≠ .error .fuel := by
  have hstart : Moves (tasmParserInit ts) (fileStart ts) := Moves.eat _ _
  let I (s : TasmParser × List TasmAst) : Prop :=
    (fileCond s = true → Loop.Enters fileCond (fileBody fuel) (fileStart ts, []) s) ∧
      Parsed (fileStart ts) (fun lines => ∀ l ∈ lines, FileLine AnyName l) (s.2, s.1)
  have hstep (s : TasmParser × List TasmAst) (hI : I s) (hc : fileCond s = true) :
      fileBody fuel s ≠ .error .fuel ∧ ∀ s', fileBody fuel s = .ok s' → I s' ∧ s'.1.pending < s.1.pending := by
    have hcall : LineCall ts s.1 := ⟨fuel, s.2, hI.1 hc⟩
    have hlt : s.1.pending < fuel := Nat.lt_of_le_of_lt (hstart.trans hI.2.moves).pending hfuel
    have hline := line_halts hlt fun hproc s' hs' => h.procLine s'.1 ⟨s.1, hcall, hproc, s'.2, hs'⟩
    refine ⟨fun he => ?_, fun s' hs' => ?_⟩
    · unfold fileBody at he
      rcases Except.bind_error he with he | ⟨⟨line, p'⟩, -, he⟩
      · exact hline he
      · cases line <;> cases he
    · obtain ⟨hp, hdec⟩ :=
        (fileBody_spec fuelOrNull_null fuelOrNull_fuel fuel (anyName_ids s.1) hI.2.shape).of_ok hs'
      exact ⟨⟨fun hc' => .turn (hI.1 hc) hs' hc', hp.after hI.2.moves⟩, hdec hcall.ne_eof (h.line _ hcall)⟩
  intro he
  unfold tasmParseFile at he
  rcases Except.bind_error he with he | ⟨s, -, he⟩
  · refine Loop.run_halts I (fun s => s.1.pending) hstep fuel _ ⟨fun hc => .first hc, .refl _, by simp⟩ ?_ he
    exact Nat.lt_of_le_of_lt hstart.pending hfuel
  · cases he

/-- The parser terminates on every token sequence, with each call of a line parser consuming a token,
if and only if none of these calls is made at a stuck token. -/
theorem tasmParseFile_progress_iff (ts : List TasmToken) :
    ((∃ fuel, (∃ r, tasmParseFile fuel (tasmParserInit ts) = .ok r) ∨
        tasmParseFile fuel (tasmParserInit ts) = .error (.fault .nullPointer)) ∧
      (∀ p, LineCall ts p → ∀ fuel line p', tasmParseLine fuel p = .ok (line, p') → p'.pending < p.pending) ∧
      (∀ p, ProcLineCall ts p → ∀ line p', tasmParseProcLine p = .ok (line, p') → p'.pending < p.pending)) ↔
      (∀ p, LineCall ts p → ¬ LineStuck p.currentToken.type) ∧
        (∀ p, ProcLineCall ts p → ¬ ProcLineStuck p.currentToken.type) := by
  constructor
  · rintro ⟨-, hline, hproc⟩
    refine ⟨fun p hp hk => ?_, fun p hp hk => ?_⟩
    · exact Nat.lt_irrefl _ (hline p hp 0 none p (line_stuck 0 hk))
    · exact Nat.lt_irrefl _ (hproc p hp none p (procLine_stuck hk))
  · rintro ⟨hline, hproc⟩
    refine ⟨⟨(tasmParserInit ts).pending + 1, ?_⟩, fun p hp fuel line p' hr => ?_, fun p hp line p' hr => ?_⟩
    · have hne := NeverStuck.file_halts ⟨hline, hproc⟩ (Nat.lt_succ_self (tasmParserInit ts).pending)
      have hspec := file_spec fuelOrNull_null fuelOrNull_fuel ((tasmParserInit ts).pending + 1)
        (anyName_ids (tasmParserInit ts))
      cases hr : tasmParseFile ((tasmParserInit ts).pending + 1) (tasmParserInit ts) with
      | ok r => exact .inl ⟨r, rfl⟩
      | error e =>
        rcases hspec.of_error hr with rfl | rfl
        · exact absurd hr hne
        · exact .inr rfl
    · exact ((line_spec fuelOrNull_null fuelOrNull_fuel fuel (anyName_ids p)).of_ok hr).2 hp.ne_eof (hline p hp)
    · exact ((procLine_spec fuelOrNull_null (anyName_ids p)).of_ok hr).2 hp.ne_eof (hproc p hp)

/-- A file whose only token is a minus sign: the parser calls `tasm_parse_line` on it forever. -/
theorem tasmParseFile_stuck_minus :
    (∀ fuel, tasmParseFile fuel (tasmParserInit [⟨.minus, some (cstr "-")⟩]) = .error .fuel) ∧
      ∃ p, LineCall [⟨.minus, some (cstr "-")⟩] p ∧ ∀ fuel, tasmParseLine fuel p = .ok (none, p) := by
  have hkind : LineStuck (fileStart [⟨.minus, some (cstr "-")⟩]).currentToken.type := by decide
  have hcond : fileCond (fileStart [⟨.minus, some (cstr "-")⟩], []) = true := by decide
  refine ⟨fun fuel => ?_, _, ⟨0, [], .first hcond⟩, fun fuel => line_stuck fuel hkind⟩
  have hbody : fileBody fuel (fileStart [⟨.minus, some (cstr "-")⟩], []) =
      .ok (fileStart [⟨.minus, some (cstr "-")⟩], []) := by
    rw [fileBody, Except.bind_of_ok (line_stuck fuel hkind)]
    rfl
  have hstep (s : TasmParser × List TasmAst) (hs : s = (fileStart [⟨.minus, some (cstr "-")⟩], [])) :
      fileCond s = true ∧ ∃ s', fileBody fuel s = .ok s' ∧ s' = (fileStart [⟨.minus, some (cstr "-")⟩], []) := by
    rw [hs]
    exact ⟨hcond, _, hbody, rfl⟩
  have hrun := Loop.run_diverges _ hstep fuel _ rfl
  exact Except.bind_of_error hrun

end TileVm
