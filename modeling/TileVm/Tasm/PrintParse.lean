/-
Parsing inverts printing. What stands between the lines of a program is passed over; each line is one
turn of a loop of the grammar, a proc one turn with a loop of its own.
-/
import TileVm.Tasm.ParserGrammar
import TileVm.Tasm.PrintTokens

namespace TileVm

open Grammar

/-! ## Lines among tokens -/

/-- The token stands between lines. -/
def Between (t : TasmToken) : Prop := t.type = .comment ∨ t.type = .endline

/-- What ends a line: a newline, or the end of the text. -/
inductive LineEnd : Tokens → Tokens → Prop where
  | newline (us : Tokens) : LineEnd (endlineToken :: us) us
  | text : LineEnd [] []

/-- The tokens are those of the lines, with any comments and newlines between them. -/
inductive HasLines : List SourceLine → Tokens → Prop where
  | nil : HasLines [] []
  | between {ls : List SourceLine} {t : TasmToken} {ts : Tokens} (ht : Between t) (h : HasLines ls ts) : HasLines ls (t :: ts)
  | line {l : SourceLine} {ls : List SourceLine} {us vs : Tokens} (hend : LineEnd us vs) (h : HasLines ls vs) :
    HasLines (l :: ls) (l.tokens ++ us)

/-- The tokens of a text in rows hold the lines of the rows. -/
theorem holds_rows (rows : List Row) (last : Row) :
    HasLines ((rows ++ [last]).filterMap (·.content.line?)) (rowsTokens rows last) := by
  induction rows with
  | nil =>
    show HasLines ([last].filterMap _) last.content.tokens
    cases hcontent : last.content with
    | blank => simpa [hcontent, Content.line?, Content.tokens] using HasLines.nil
    | comment text ends =>
      simpa [hcontent, Content.line?, Content.tokens] using HasLines.between (t := commentToken) (.inl rfl) .nil
    | line l =>
      have hlast := HasLines.line (l := l) .text .nil
      simpa [hcontent, Content.line?, Content.tokens] using hlast
  | cons r rows ih =>
    have hnewline : HasLines _ (endlineToken :: rowsTokens rows last) := .between (.inr rfl) ih
    have htokens : rowsTokens (r :: rows) last = r.content.tokens ++ endlineToken :: rowsTokens rows last := by
      simp [rowsTokens]
    rw [htokens, List.cons_append, List.filterMap_cons]
    cases r.content with
    | blank => exact hnewline
    | comment text ends => exact .between (.inl rfl) hnewline
    | line l => exact .line (.newline _) ih

/-- In front of a line there are only tokens between lines. -/
theorem HasLines.first_line {l : SourceLine} {ls : List SourceLine} {ts : Tokens} (h : HasLines (l :: ls) ts) :
    ∃ bs us vs, ts = bs ++ (l.tokens ++ us) ∧ (∀ t ∈ bs, Between t) ∧ LineEnd us vs ∧ HasLines ls vs := by
  generalize hls : l :: ls = ls' at h
  induction h with
  | nil => cases hls
  | between ht h ih =>
    rename_i t ts
    obtain ⟨bs, us, vs, rfl, hbs, hend, hrest⟩ := ih hls
    exact ⟨t :: bs, us, vs, rfl, by simpa [ht] using hbs, hend, hrest⟩
  | line hend h =>
    cases hls
    exact ⟨[], _, _, rfl, by simp, hend, h⟩

theorem HasLines.no_line {ts : Tokens} (h : HasLines [] ts) : ∀ t ∈ ts, Between t := by
  generalize hls : ([] : List SourceLine) = ls at h
  induction h with
  | nil => simp
  | between ht h ih => simpa [ht] using ih hls
  | line => cases hls

/-! ## Loops of the grammar -/

section Loops

variable {stop : TokenType → Bool} {line : Tokens → Option (Option TasmAst × Tokens)} {ts us : Tokens}
  {r : List TasmAst × Tokens}

/-- A loop that gets as many turns as there are tokens returns `r`. -/
def Loops (stop : TokenType → Bool) (line : Tokens → Option (Option TasmAst × Tokens)) (ts : Tokens)
    (r : List TasmAst × Tokens) : Prop := ∀ n, ts.length ≤ n → many stop line n ts = some r

/-- The loop passes over what stands between lines. -/
structure PassesBetween (stop : TokenType → Bool) (line : Tokens → Option (Option TasmAst × Tokens)) : Prop where
  stop : stop .comment = false ∧ stop .endline = false
  line : ∀ t ts, Between t → line (t :: ts) = some (none, blank (t :: ts))

theorem Loops.stops (h : stop (first ts) = true) : Loops stop line ts ([], ts) := by
  rintro (_ | n) -
  · simp [many, h]
  · simp [many, h]

theorem Loops.turn {a : TasmAst} {as : List TasmAst} {vs : Tokens} (hstop : stop (first ts) = false)
    (hline : line ts = some (some a, us)) (hless : us.length < ts.length) (h : Loops stop line us (as, vs)) :
    Loops stop line ts (a :: as, vs) := by
  rintro (_ | n) hn
  · omega
  · rw [many, if_neg (by simp [hstop]), hline]
    simp [h n (by omega)]

theorem many_between (hp : PassesBetween stop line) {t : TasmToken} (ht : Between t) (n : Nat) :
    many stop line (n + 1) (t :: ts) = many stop line n (blank (t :: ts)) := by
  have hstop : stop (first (t :: ts)) = false := by
    rcases ht with he | he
    · exact (congrArg stop he).trans hp.stop.1
    · exact (congrArg stop he).trans hp.stop.2
  rw [many, if_neg (by simp [hstop]), hp.line t ts ht]
  cases h : many stop line n (blank (t :: ts)) <;> simp [h]

theorem Loops.between (hp : PassesBetween stop line) {t : TasmToken} (ht : Between t) (h : Loops stop line ts r) :
    Loops stop line (t :: ts) r := by
  rintro (_ | n) hn
  · simp at hn
  · have hn : ts.length ≤ n := by simpa using hn
    rw [many_between hp ht]
    rcases ht with he | he
    · have hblank : blank (t :: ts) = ts := by simp [blank, skip, first, he]
      rw [hblank]
      exact h n hn
    · -- the turn at a newline also takes a comment behind it
      have hblank : blank (t :: ts) = skip .comment ts := by simp [blank, skip, first, he]
      rw [hblank]
      rcases ts with _ | ⟨c, ts⟩
      · exact h n hn
      · by_cases hc : c.type = .comment
        · have hskip : skip .comment (c :: ts) = ts := by simp [skip, first, hc]
          have hsame := h (n + 1) (Nat.le_succ_of_le hn)
          rw [many_between hp (.inl hc), show blank (c :: ts) = ts by simp [blank, skip, first, hc]] at hsame
          rw [hskip, hsame]
        · rw [show skip .comment (c :: ts) = c :: ts by simp [skip, first, hc]]
          exact h n hn

theorem Loops.betweens (hp : PassesBetween stop line) {bs : Tokens} (hbs : ∀ t ∈ bs, Between t)
    (h : Loops stop line ts r) : Loops stop line (bs ++ ts) r := by
  induction bs with
  | nil => exact h
  | cons b bs ih => exact (ih fun t ht => hbs t (by simp [ht])).between hp (hbs b (by simp))

theorem Loops.lineEnd (hp : PassesBetween stop line) (hend : LineEnd us ts) (h : Loops stop line ts r) :
    Loops stop line us r := by
  cases hend with
  | newline => exact h.between hp (.inr rfl)
  | text => exact h

end Loops

/-! ## Literals and operands -/

section Operands

variable {us : Tokens}

theorem numLit_decimal (us : Tokens) (v : IntLit) {negative : Bool} (hneg : negative = decide (v.value < 0)) :
    numLit negative (⟨.decimalNumber, some (decimalText v.value.natAbs)⟩ :: us) = some (v.ast, us) := by
  have htext : (if negative then chr '-' :: decimalText v.value.natAbs else decimalText v.value.natAbs) = literal v.value := by
    unfold literal
    simp [hneg]
  simp only [numLit, Option.bind_eq_bind, Option.bind_some, htext, numLitValue,
    strtoll_literal v.lower v.upper]
  rfl

theorem number_literal (v : IntLit) : number (literalTokens v.value ++ us) = some (some v.ast, us) := by
  unfold literalTokens
  split
  · have hlit := numLit_decimal us v (show true = decide (v.value < 0) by simpa using ‹v.value < 0›)
    exact congrArg (Option.map (Prod.map some id)) hlit
  · have hlit := numLit_decimal us v (show false = decide (v.value < 0) by simpa using ‹¬ v.value < 0›)
    exact congrArg (Option.map (Prod.map some id)) hlit

/-- Without a sign there is only the digits' token. -/
theorem literalTokens_nat (n : NatLit) : literalTokens n.value = [⟨.decimalNumber, some (decimalText n.value.natAbs)⟩] :=
  if_neg (Int.not_lt.mpr n.nonneg)

theorem int_literal (n : NatLit) : int (literalTokens n.value ++ us) = some (some n.ast, us) := by
  have hlit := numLit_decimal us n.toIntLit (show false = decide (n.value < 0) by simpa using n.nonneg)
  rw [literalTokens_nat]
  exact congrArg (Option.map (Prod.map some id)) hlit

theorem label_ident (x : Ident) : label (wordToken x.text :: us) = some (some (.labelCall (some x.text)), us) := by
  simp [label, labelCall, expect, first, wordToken, x.free]

theorem needed_some {parse : Tokens → Option (Option TasmAst × Tokens)} {ts : Tokens} {a : TasmAst}
    (h : parse ts = some (some a, us)) : needed parse ts = some (some a, us) := by
  simp [needed, h]

theorem operand_tokens {k : OperandKind} (a : Operand k) : Grammar.operand k (a.tokens ++ us) = some (a.ast, us) := by
  cases a with
  | nothing => rfl
  | push v =>
    have hfirst : first (literalTokens v.value ++ us) ≠ .apost := by
      unfold literalTokens
      split <;> simp [first, minusToken]
    exact needed_some ((if_neg hfirst).trans (number_literal v))
  | int n => exact needed_some (int_literal n)
  | jump n =>
    have hfirst : isInt (first (literalTokens n.value ++ us)) = true := by rw [literalTokens_nat]; rfl
    exact needed_some ((if_pos hfirst).trans (int_literal n))
  | jumpLabel x =>
    have hfirst : isInt (first (wordToken x.text :: us)) = false := by simp [first, wordToken, x.free, isInt]
    exact needed_some ((if_neg (Bool.eq_false_iff.mp hfirst)).trans (label_ident x))
  | label x => exact needed_some (label_ident x)

end Operands

/-! ## Lines -/

section Lines

variable {us vs : Tokens}

theorem LineEnd.endOfLine (hend : LineEnd us vs) : Grammar.endOfLine us = some vs := by
  cases hend <;> rfl

theorem instruction_tokens (i : Inst) (hend : LineEnd us vs) :
    instruction ((Statement.inst i).tokens ++ us) = some (i.ast, vs) := by
  have hop : (wordToken (mnemonic i.capital i.op)).type = .op i.op := wordType_mnemonic i.capital i.op
  simp only [Statement.tokens, List.cons_append, instruction, hop, operand_tokens, Option.bind_eq_bind, Option.bind_some,
    hend.endOfLine]
  rfl

theorem labelDecl_tokens (x : Ident) : labelDecl ((Statement.label x).tokens ++ us) = some (.labelDecl (some x.text), us) := by
  simp [Statement.tokens, labelDecl, expect, wordToken, colonToken, x.free]

/-- A mnemonic starts no label declaration. -/
theorem inst_first (us : Tokens) (i : Inst) : isLabelDecl ((Statement.inst i).tokens ++ us) = false ∧
    first ((Statement.inst i).tokens ++ us) = .op i.op := by
  have hop : (wordToken (mnemonic i.capital i.op)).type = .op i.op := wordType_mnemonic i.capital i.op
  refine ⟨?_, hop⟩
  unfold Statement.tokens
  rw [List.cons_append]
  rcases i.operand.tokens ++ us with _ | ⟨c, cs⟩ <;> simp [isLabelDecl, hop]

theorem label_first (x : Ident) : isLabelDecl ((Statement.label x).tokens ++ us) = true := by
  simp [Statement.tokens, isLabelDecl, wordToken, colonToken, x.free]

/-- A statement of a proc is one turn. An instruction takes the end of its line, a label leaves it. -/
theorem procLine_statement (s : Statement) (hend : LineEnd us vs) :
    ∃ ws, procLine (s.tokens ++ us) = some (some s.ast, ws) ∧ (ws = us ∨ ws = vs) := by
  cases s with
  | inst i =>
    obtain ⟨hlabel, hfirst⟩ := inst_first us i
    refine ⟨vs, ?_, .inr rfl⟩
    have hinst : isInstruction (.op i.op) = true := rfl
    unfold procLine
    rw [hlabel, hfirst, if_neg (by decide), if_pos hinst, instruction_tokens i hend]
    rfl
  | label x =>
    refine ⟨us, ?_, .inl rfl⟩
    unfold procLine
    rw [if_pos (label_first x), labelDecl_tokens]
    rfl

theorem line_statement (fuel : Nat) (s : Statement) (hend : LineEnd us vs) :
    ∃ ws, Grammar.line fuel (s.tokens ++ us) = some (some s.ast, ws) ∧ (ws = us ∨ ws = vs) := by
  cases s with
  | inst i =>
    obtain ⟨hlabel, hfirst⟩ := inst_first us i
    refine ⟨vs, ?_, .inr rfl⟩
    have hinst : isInstruction (.op i.op) = true := rfl
    unfold Grammar.line
    rw [hlabel, hfirst, if_neg (by decide), if_neg (by simp), if_pos hinst, instruction_tokens i hend]
    rfl
  | label x =>
    refine ⟨us, ?_, .inl rfl⟩
    unfold Grammar.line
    rw [if_pos (label_first x), labelDecl_tokens]
    rfl

/-- Argument types, up to the end of the line. -/
theorem ctypes_tokens (atypes : List CType) (hend : LineEnd us vs) {fuel : Nat} (hfuel : atypes.length ≤ fuel) :
    ctypes fuel (atypes.map (fun t => wordToken (ctypeName t)) ++ us) = some (atypes.map CType.code, us) := by
  induction atypes generalizing fuel with
  | nil =>
    have hstop : [TokenType.endline, .eof, .comment].contains (first us) = true := by cases hend <;> rfl
    cases fuel <;> exact if_pos hstop
  | cons t atypes ih =>
    obtain ⟨fuel, rfl⟩ : ∃ n, fuel = n + 1 := ⟨fuel - 1, by simp at hfuel; omega⟩
    have htype : (wordToken (ctypeName t)).type = .tci t := wordType_ctypeName t
    rw [List.map_cons, List.cons_append, ctypes]
    simp [first, ctype, htype, ih (by simpa using hfuel)]

/-- A line that starts with an `@` is one of metadata. -/
theorem line_at (fuel : Nat) (ts : Tokens) :
    Grammar.line fuel (atToken :: ts) = (metadata fuel (atToken :: ts)).map (Prod.map some id) := by
  have hlabel : isLabelDecl (atToken :: ts) = false := by cases ts <;> rfl
  unfold Grammar.line
  rw [hlabel]
  rfl

theorem line_cfun {fuel : Nat} (rtype : CType) (x : Ident) (atypes : List CType) (hend : LineEnd us vs)
    (hfuel : atypes.length ≤ fuel) : Grammar.line fuel ((SourceLine.cfun rtype x atypes).tokens ++ us) =
      some (some (FileItem.cfun rtype x atypes).ast, us) := by
  have hat : atToken.type = .atSign := rfl
  simp only [SourceLine.tokens, wordToken_keywords.2.2.1, wordToken_of (wordType_ctypeName rtype), wordToken_of x.free,
    List.cons_append, line_at, metadata, cfunction, expect, ctype, first, List.headD_cons, hat, if_true,
    Option.bind_eq_bind, Option.bind_some, ctypes_tokens atypes hend hfuel, List.length_map]
  rfl

/-- A line with a constant. -/
theorem line_at_data (fuel : Nat) (ts : Tokens) : Grammar.line fuel (atToken :: wordToken (cstr "data") :: ts) =
    (dataValue ts).map (Prod.map (fun v => some (.data v)) id) := by
  have hat : atToken.type = .atSign := rfl
  simp only [wordToken_keywords.2.2.2, line_at, metadata, Grammar.data, expect, first, List.headD_cons, hat, if_true,
    Option.bind_eq_bind, Option.bind_some, reduceCtorEq, if_false]
  cases dataValue ts <;> rfl

theorem line_data {fuel : Nat} (v : IntLit) :
    Grammar.line fuel ((SourceLine.data v).tokens ++ us) = some (some (FileItem.data v).ast, us) := by
  have hvalue : dataValue (literalTokens v.value ++ us) = some (some v.ast, us) := by
    rw [← number_literal]
    unfold dataValue literalTokens
    split <;> rfl
  simp only [SourceLine.tokens, List.cons_append, line_at_data, hvalue]
  rfl

end Lines

/-! ## Programs -/

section Programs

theorem procLine_between : PassesBetween (fun t => t == .endp || t == .eof) procLine := by
  refine ⟨by decide, ?_⟩
  rintro t ts (ht | ht)
  all_goals
    have hlabel : isLabelDecl (t :: ts) = false := by cases ts <;> simp [isLabelDecl, ht]
    unfold procLine
    rw [hlabel, show first (t :: ts) = _ from ht]
    rfl

theorem line_between (fuel : Nat) : PassesBetween (· == .eof) (Grammar.line fuel) := by
  refine ⟨by decide, ?_⟩
  rintro t ts (ht | ht)
  all_goals
    have hlabel : isLabelDecl (t :: ts) = false := by cases ts <;> simp [isLabelDecl, ht]
    unfold Grammar.line
    rw [hlabel, show first (t :: ts) = _ from ht]
    rfl

theorem LineEnd.length_le {us vs : Tokens} (h : LineEnd us vs) : vs.length ≤ us.length := by
  cases h <;> simp

theorem Statement.tokens_pos (s : Statement) : 0 < s.tokens.length := by cases s <;> simp [Statement.tokens]

theorem Statement.first_kind (s : Statement) (us : Tokens) : (∃ o, first (s.tokens ++ us) = .op o) ∨
    first (s.tokens ++ us) = .id := by
  cases s with
  | inst i => exact .inl ⟨i.op, (inst_first us i).2⟩
  | label x => exact .inr x.free

/-- The lines of a proc, up to its `endp`. -/
theorem procLines_body {ls : List SourceLine} : ∀ (body : List Statement) {ts : Tokens},
    HasLines (body.map SourceLine.statement ++ .endp :: ls) ts → ∃ us vs, LineEnd us vs ∧ HasLines ls vs ∧
      us.length < ts.length ∧
      Loops (fun t => t == .endp || t == .eof) procLine ts (body.map Statement.ast, wordToken (cstr "endp") :: us)
  | [], ts, h => by
    obtain ⟨bs, us, vs, rfl, hbs, hend, hrest⟩ := h.first_line
    refine ⟨us, vs, hend, hrest, by simp [SourceLine.tokens]; omega, .betweens procLine_between hbs (.stops ?_)⟩
    rw [SourceLine.tokens, wordToken_keywords.2.1]
    rfl
  | s :: body, ts, h => by
    obtain ⟨bs, us, vs, rfl, hbs, hend, hrest⟩ := h.first_line
    have htokens : (SourceLine.statement s).tokens = s.tokens := rfl
    rw [htokens]
    obtain ⟨us', vs', hend', hrest', hless, hloop⟩ := procLines_body body hrest
    obtain ⟨ws, hline, hws⟩ := procLine_statement s hend
    have hle := hend.length_le
    have hpos := s.tokens_pos
    refine ⟨us', vs', hend', hrest', by simp; omega, .betweens procLine_between hbs ?_⟩
    refine .turn ?_ hline ?_ ?_
    · rcases s.first_kind us with ⟨o, ho⟩ | hid
      · rw [ho]
        rfl
      · rw [hid]
        rfl
    · rcases hws with rfl | rfl <;> simp <;> omega
    · rcases hws with rfl | rfl
      · exact hloop.lineEnd procLine_between hend
      · exact hloop

/-- A proc is one turn, with the end of the line behind its `endp`. -/
theorem line_proc {fuel : Nat} {x : Ident} {body : List Statement} {ls : List SourceLine} {us vs : Tokens}
    (hend : LineEnd us vs) (h : HasLines (body.map SourceLine.statement ++ .endp :: ls) vs) (hfuel : us.length ≤ fuel) :
    ∃ ws, Grammar.line fuel ((SourceLine.proc x).tokens ++ us) = some (some (FileItem.proc x body).ast, ws) ∧
      HasLines ls ws ∧ ws.length < us.length := by
  obtain ⟨us', vs', hend', hrest, hless, hloop⟩ := procLines_body body h
  have hlines : procLines fuel us = some (body.map Statement.ast, wordToken (cstr "endp") :: us') :=
    hloop.lineEnd procLine_between hend fuel hfuel
  have hle := hend.length_le
  have hle' := hend'.length_le
  have htokens : (SourceLine.proc x).tokens = [⟨.proc, some (cstr "proc")⟩, ⟨.id, some x.text⟩] := by
    rw [SourceLine.tokens, wordToken_keywords.1, wordToken_of x.free]
  rw [wordToken_keywords.2.1] at hlines
  have hrule : Grammar.proc fuel ((SourceLine.proc x).tokens ++ us) = some ((FileItem.proc x body).ast, vs') := by
    simp only [htokens, List.cons_append, List.nil_append, Grammar.proc, expect, if_true, Option.bind_eq_bind,
      Option.bind_some, hlines, hend'.endOfLine]
    rfl
  refine ⟨vs', ?_, hrest, by omega⟩
  unfold Grammar.line
  rw [hrule, htokens]
  rfl

/-- The lines of the file, in as many turns as there are tokens. -/
theorem lines_program {fuel : Nat} : ∀ (prog : List FileItem) {ts : Tokens}, HasLines (prog.flatMap FileItem.lines) ts →
    ts.length ≤ fuel → Loops (· == .eof) (Grammar.line fuel) ts (prog.map FileItem.ast, [])
  | [], ts, h, hfuel => by
    have hloop := Loops.betweens (line_between fuel) h.no_line (@Loops.stops _ _ [] (by rfl))
    rwa [List.append_nil] at hloop
  | .statement s :: prog, ts, h, hfuel => by
    obtain ⟨bs, us, vs, rfl, hbs, hend, hrest⟩ := h.first_line
    have htokens : (SourceLine.statement s).tokens = s.tokens := rfl
    rw [htokens] at hfuel ⊢
    obtain ⟨ws, hline, hws⟩ := line_statement fuel s hend
    have hle := hend.length_le
    have hpos := s.tokens_pos
    have hlen : ws.length ≤ us.length := by rcases hws with rfl | rfl <;> omega
    rw [List.length_append, List.length_append] at hfuel
    have hloop := lines_program prog hrest (show vs.length ≤ fuel by omega)
    refine .betweens (line_between fuel) hbs (.turn ?_ hline ?_ ?_)
    · rcases s.first_kind us with ⟨o, ho⟩ | hid
      · rw [ho]
        rfl
      · rw [hid]
        rfl
    · rw [List.length_append]
      omega
    · rcases hws with rfl | rfl
      · exact hloop.lineEnd (line_between fuel) hend
      · exact hloop
  | .proc x body :: prog, ts, h, hfuel => by
    have h : HasLines (.proc x :: (body.map .statement ++ .endp :: prog.flatMap FileItem.lines)) ts := by
      simpa [FileItem.lines] using h
    obtain ⟨bs, us, vs, rfl, hbs, hend, hrest⟩ := h.first_line
    simp only [List.length_append] at hfuel
    obtain ⟨ws, hline, hrest, hless⟩ := line_proc hend hrest (show us.length ≤ fuel by omega)
    refine .betweens (line_between fuel) hbs (.turn ?_ hline ?_ (lines_program prog hrest (by omega)))
    · rw [SourceLine.tokens, wordToken_keywords.1]
      rfl
    · rw [List.length_append]
      omega
  | .cfun rtype x atypes :: prog, ts, h, hfuel => by
    obtain ⟨bs, us, vs, rfl, hbs, hend, hrest⟩ := h.first_line
    have hle := hend.length_le
    simp only [SourceLine.tokens, List.length_append, List.length_cons, List.length_map] at hfuel
    have hloop := (lines_program prog hrest (show vs.length ≤ fuel by omega)).lineEnd (line_between fuel) hend
    refine .betweens (line_between fuel) hbs (.turn rfl (line_cfun rtype x atypes hend (by omega)) ?_ hloop)
    simp [SourceLine.tokens]
    omega
  | .data v :: prog, ts, h, hfuel => by
    obtain ⟨bs, us, vs, rfl, hbs, hend, hrest⟩ := h.first_line
    have hle := hend.length_le
    simp only [SourceLine.tokens, List.length_append, List.length_cons] at hfuel
    have hloop := (lines_program prog hrest (show vs.length ≤ fuel by omega)).lineEnd (line_between fuel) hend
    refine .betweens (line_between fuel) hbs (.turn rfl (line_data v) ?_ hloop)
    simp [SourceLine.tokens]
    omega

end Programs

/-- The parser takes the tokens of rows that hold a program. -/
theorem rows_parsed {prog : List FileItem} {rows : List Row} {last : Row}
    (h : (rows ++ [last]).filterMap (·.content.line?) = prog.flatMap FileItem.lines) {fuel : Nat}
    (hfuel : (rowsTokens rows last).length ≤ fuel) :
    ∃ p, tasmParseFile fuel (tasmParserInit (rowsTokens rows last)) = .ok (.file (prog.map FileItem.ast), p) ∧ p.isErr = false := by
  have hholds := holds_rows rows last
  rw [h] at hholds
  have hfile : Grammar.file fuel (rowsTokens rows last) = some (.file (prog.map FileItem.ast), []) := by
    unfold Grammar.file Grammar.lines
    rw [lines_program prog hholds hfuel fuel hfuel]
    rfl
  exact (parse_ok_iff (lexTokens_rows rows last).ne_eof).mpr ⟨[], hfile⟩

/-- The text of a program is read as tokens that the parser, with as many turns as there are tokens, takes without an
error for the tree of the program. -/
theorem parse_print {prog : List FileItem} {text : CStr} (h : Prints prog text) :
    ∃ ts, LexTokens (tasmLexerInit (marked text)) ts ∧ ∀ fuel, ts.length ≤ fuel →
      ∃ p, tasmParseFile fuel (tasmParserInit ts) = .ok (.file (prog.map FileItem.ast), p) ∧ p.isErr = false := by
  obtain ⟨rows, last, hlines, rfl⟩ := h
  exact ⟨rowsTokens rows last, lexTokens_rows rows last, fun fuel hfuel => rows_parsed hlines hfuel⟩

/-- A program with a constant, a proc that jumps to its own label, and a declared function. -/
def loopProgram : List FileItem :=
  let main : Ident := ⟨cstr "main", by decide, by decide, by decide, by decide +kernel⟩
  let again : Ident := ⟨cstr "again", by decide, by decide, by decide, by decide +kernel⟩
  let print : Ident := ⟨cstr "print", by decide, by decide, by decide, by decide +kernel⟩
  [.data ⟨-7, by decide, by decide⟩,
    .proc main [.label again, .inst ⟨.push, true, .push ⟨2147483647, by decide, by decide⟩⟩, .inst ⟨.jmp, false, .jumpLabel again⟩],
    .cfun .void print [.int32, .ptr], .statement (.inst ⟨.halt, false, .nothing⟩)]

/-- A text of the program, with a comment, a blank line and indentation, and no newline at its end. -/
def loopText : CStr :=
  cstr "\t; say \"hi\"\n@data -7\n \nproc main\n again:\n PUSH 2147483647\n jmp again\n endp\n @cfun void print i32 ptr\n hlt"

/-- Its rows before the last one. -/
def loopRows : List SourceLine → List Row
  | d :: p :: ls =>
    ⟨[chr '\t'], by decide, .comment (cstr " say \"hi\"") (by decide)⟩ :: ⟨[], by simp, .line d⟩ ::
      ⟨[chr ' '], one_blank, .blank⟩ :: ⟨[], by simp, .line p⟩ :: ls.dropLast.map (⟨[chr ' '], one_blank, .line ·⟩)
  | _ => []

theorem loopText_prints : Prints loopProgram loopText := by
  refine ⟨loopRows (loopProgram.flatMap FileItem.lines),
    ⟨[chr ' '], one_blank, .line (.statement (.inst ⟨.halt, false, .nothing⟩))⟩, rfl, ?_⟩
  decide +kernel

theorem parse_print_loop : ∃ ts, LexTokens (tasmLexerInit (marked loopText)) ts ∧ ∀ fuel, ts.length ≤ fuel →
    ∃ p, tasmParseFile fuel (tasmParserInit ts) = .ok (.file (loopProgram.map FileItem.ast), p) ∧ p.isErr = false :=
  parse_print loopText_prints

end TileVm
