/-
Blanks or a comment added at the end of a line, and how the lexer reads them where it does not scan a
literal: as a comment, or not at all.
-/
import TileVm.Tasm.LexerPosition
import TileVm.Tasm.Noted
import TileVm.Tasm.Quoted
import TileVm.Tasm.TwinCalls

namespace TileVm

/-! ## What is added -/

/-- Spaces and tabs, or a comment behind them. A comment does not hold the marker, at which the text would end. -/
inductive Layout : List Byte → Prop
  | blanks {ws : List Byte} (hws : ∀ c ∈ ws, isBlank c = true) : Layout ws
  | comment {ws cs : List Byte} (hws : ∀ c ∈ ws, isBlank c = true)
    (hcs : ∀ c ∈ cs, c ≠ chr '\n' ∧ c ≠ 0 ∧ c ≠ eofChar) : Layout (ws ++ chr ';' :: cs)

/-- The text goes on with a newline or ends. -/
def EndsLine (rest : List Byte) : Prop := rest = [] ∨ rest.head? = some (chr '\n')

/-- The end of the line between `before` and `rest` lies in a literal: the quote that opens it is in front of the line end,
and the line end follows at once, or the scan of the text of the literal does not stop in front of it. -/
def InLiteral (before rest : List Byte) : Prop :=
  ∃ ts lx b, LexCalls (tasmLexerInit (marked (before ++ rest))) ts lx ∧ remaining lx = b ++ marked rest ∧ openQuote ts ≠ none ∧
    (b = [] ∨ (inString lx = true ∨ inChar lx = true) ∧ ¬ StaysIn lx b)

/-- What is added, outside a literal. -/
structure Addition (before w rest : List Byte) : Prop where
  layout : Layout w
  ne : w ≠ []
  ends : EndsLine rest
  outside : ¬ InLiteral before rest

/-- The last token in front of the line end ends there, with a quote, and is no comment. -/
def EndsLiteral (before rest : List Byte) : Prop :=
  ∃ ts t lx, LexCalls (tasmLexerInit (marked (before ++ rest))) (ts ++ [t]) lx ∧ remaining lx = marked rest ∧
    t.type ≠ .comment ∧ (lx.prevChar = chr '"' ∨ lx.prevChar = chr '\'')

/-! ## The characters -/

section Characters

variable {w a rest : List Byte}

theorem isBlank_plain : ∀ c, isBlank c = true →
    c ≠ chr '\n' ∧ c ≠ 0 ∧ c ≠ eofChar ∧ c ≠ chr '"' ∧ c ≠ chr '\'' ∧ c ≠ chr ';' := by
  decide

theorem Layout.chars (h : Layout w) : ∀ c ∈ w, c ≠ chr '\n' ∧ c ≠ 0 ∧ c ≠ eofChar := by
  cases h with
  | blanks hws =>
    intro c hc
    obtain ⟨hn, hzero, heof, -⟩ := isBlank_plain c (hws c hc)
    exact ⟨hn, hzero, heof⟩
  | comment hws hcs =>
    intro c hc
    rcases List.mem_append.mp hc with hc | hc
    · obtain ⟨hn, hzero, heof, -⟩ := isBlank_plain c (hws c hc)
      exact ⟨hn, hzero, heof⟩
    · rcases List.mem_cons.mp hc with rfl | hc
      · decide
      · exact hcs c hc

theorem Layout.head (h : Layout w) (hne : w ≠ []) : isBlank (w.headD 0) = true ∨ w.headD 0 = chr ';' := by
  cases h with
  | blanks hws =>
    obtain ⟨c, ws, rfl⟩ := List.exists_cons_of_ne_nil hne
    exact .inl (hws c (by simp))
  | @comment ws cs hws hcs =>
    cases ws with
    | nil => exact .inr rfl
    | cons c ws => exact .inl (hws c (by simp))

/-- Blanks and a comment one behind the other are such an addition again. -/
theorem Layout.append (h : Layout a) (hw : Layout w) : Layout (a ++ w) := by
  cases h with
  | blanks hws =>
    cases hw with
    | blanks hws' =>
      refine .blanks fun c hc => ?_
      rcases List.mem_append.mp hc with hc | hc
      · exact hws c hc
      · exact hws' c hc
    | comment hws' hcs =>
      rw [← List.append_assoc]
      refine .comment (fun c hc => ?_) hcs
      rcases List.mem_append.mp hc with hc | hc
      · exact hws c hc
      · exact hws' c hc
  | comment hws hcs =>
    rw [List.append_assoc, List.cons_append]
    refine .comment hws fun c hc => ?_
    rcases List.mem_append.mp hc with hc | hc
    · exact hcs c hc
    · exact hw.chars c hc

theorem EndsLine.row (h : EndsLine rest) : EndsRow (marked rest) := by
  rcases h with rfl | h
  · exact .inr rfl
  · obtain ⟨r, rfl⟩ := List.head?_eq_some_iff.mp h
    exact .inl rfl

/-- The end of a line is a border between the texts. -/
theorem Layout.border (hw : Layout w) (hne : w ≠ []) (hrest : EndsLine rest) :
    Border (marked rest) (w ++ marked rest) := by
  have hstrlen : strlen (w ++ marked rest) = w.length + strlen (marked rest) := by
    refine strlen_append (fun c hc => ?_) _
    obtain ⟨-, hzero, heof⟩ := hw.chars c hc
    exact not_or.mpr ⟨hzero, heof⟩
  have hline : lineLength (w ++ marked rest) = lineLength (marked rest) + w.length := by
    have hall : lineLength w = w.length := by
      refine List.findIdx_eq_length.mpr fun c hc => ?_
      obtain ⟨hn, -, heof⟩ := hw.chars c hc
      simp [hn, heof]
    rw [lineLength_append, if_neg (by rw [hall]; exact Nat.lt_irrefl _)]
  refine ⟨.inr ⟨?_, ?_⟩, by rw [hstrlen, hline]; omega, by rw [hstrlen, hline]; omega⟩
  · rcases hrest.row with h | h <;> rw [h] <;> decide
  · obtain ⟨c, w', rfl⟩ := List.exists_cons_of_ne_nil hne
    have hblank : ∀ c, isBlank c = true → c ∈ lineRestChars := by decide
    rcases hw.head hne with h | h
    · exact hblank c h
    · have hc : c = chr ';' := h
      show c ∈ lineRestChars
      rw [hc]
      decide

theorem Layout.not_locked (hw : Layout w) (hne : w ≠ []) : ¬ Locked (marked rest) (w ++ marked rest) := by
  rintro ⟨e, v, v', -, hu, he⟩
  obtain ⟨c, w', rfl⟩ := List.exists_cons_of_ne_nil hne
  obtain ⟨rfl, -⟩ := List.cons.inj hu
  obtain ⟨-, hzero, heof⟩ := hw.chars c (by simp)
  exact he.elim hzero heof

end Characters

/-! ## Behind the border -/

section Behind

variable {lx lx' lx₁ lx₂ : TasmLexer} {t : TasmToken} {ts us : List TasmToken} {ws a cs rest : List Byte}

theorem Reads.calm (h : Reads cs lx) : Calm lx := ⟨h.string, h.char⟩

/-- A text with a character at which the lexer stays begins with one that has none. -/
theorem exists_stay (h : ∃ e ∈ cs, StaysAt e) : ∃ a e v, cs = a ++ e :: v ∧ StaysAt e ∧ ∀ c ∈ a, ¬ StaysAt c := by
  obtain ⟨e, hfind⟩ := Option.isSome_iff_exists.mp
    (List.find?_isSome.mpr (h.imp fun e he => ⟨he.1, decide_eq_true he.2⟩))
  obtain ⟨he, a, v, rfl, ha⟩ := List.find?_eq_some_iff_append.mp hfind
  exact ⟨a, e, v, rfl, of_decide_eq_true he, fun c hc => by simpa using ha c hc⟩

/-- From one rest of a text on two lexers read the same tokens. -/
theorem Reads.tokens (h : Reads (marked rest) lx) (h' : Reads (marked rest) lx') (hpeek : lx.peek = 0 ↔ lx'.peek = 0)
    (hts : LexTokens lx ts) : LexTokens lx' ts := by
  have hmarker : ∃ e ∈ marked rest, StaysAt e := ⟨eofChar, by simp [marked], .inr rfl⟩
  obtain ⟨a, e, v, hsplit, he, ha⟩ := exists_stay hmarker
  have hlock : Locked (e :: v) (e :: v) := ⟨e, v, v, rfl, rfl, he⟩
  have htwin : Twin (e :: v) (e :: v) a lx lx' :=
    ⟨h.onText, h'.onText, h.rest.trans hsplit, h'.rest.trans hsplit, ha, .inr ⟨h.calm, h'.calm⟩, hpeek⟩
  exact hts.twin htwin ⟨.inl hlock, Iff.rfl, Iff.rfl⟩ hlock

theorem LexTokens.uncons (hcall : LexCall lx t lx₁) (hts : LexTokens lx ts) :
    t.type = .eof ∧ ts = [] ∨ ∃ us, ts = t :: us ∧ LexTokens lx₁ us := by
  cases hts with
  | eof call =>
    obtain ⟨rfl, -⟩ := call.unique hcall
    exact .inl ⟨rfl, rfl⟩
  | cons call ne rest =>
    obtain ⟨rfl, rfl⟩ := call.unique hcall
    exact .inr ⟨_, rfl, rest⟩

/-- At the end of a line the next token is the end of the line, or that of the text. -/
theorem Reads.endline (h : Reads (marked rest) lx) (hrest : EndsLine rest) (hcall : LexCall lx t lx₁) :
    t.type = .eof ∨ t.type = .endline ∧ ∃ r, rest = chr '\n' :: r ∧ remaining lx₁ = marked r := by
  rcases hrest with rfl | hrest
  · have hcur : lx.currentChar = eofChar := h.onText.current_eq h.rest
    obtain ⟨rfl, -⟩ := hcall.unique ⟨0, getNextToken_eof 0 hcur⟩
    exact .inl rfl
  · obtain ⟨r, rfl⟩ := List.head?_eq_some_iff.mp hrest
    have hlexes : Lexes ([] ++ chr '\n' :: marked r) [⟨.endline, some (cstr "endl")⟩] (marked r) :=
      lexes_one (by simp) (by simp [oneChars])
    obtain ⟨lx', h', hcalls⟩ := hlexes lx h
    cases hcalls with
    | cons call ne rest =>
      cases rest
      obtain ⟨rfl, rfl⟩ := call.unique hcall
      exact .inr ⟨rfl, r, rfl, h'.rest⟩

theorem Reads.first_endline (h : Reads (marked rest) lx) (hrest : EndsLine rest) (hts : LexTokens lx ts) :
    ts = [] ∨ Grammar.first ts = .endline := by
  cases hts with
  | eof => exact .inl rfl
  | cons call ne _ =>
    rcases h.endline hrest call with he | ⟨he, -⟩
    · exact absurd he ne
    · exact .inr he

/-- Behind a quote the next token is a string, a character or none at all. -/
theorem call_literal {s : TasmToken} (hscan : inString lx = true ∨ inChar lx = true) (hcall : LexCall lx s lx₁) :
    isText s.type = true := by
  obtain ⟨fuel, hr⟩ := hcall
  unfold tasmLexerGetNextToken at hr
  by_cases hstr : inString lx = true
  · rw [if_pos hstr] at hr
    obtain ⟨_, -, hr⟩ := Except.bind_ok hr
    obtain ⟨_, -, hr⟩ := Except.bind_ok hr
    obtain ⟨_, -, hr⟩ := Except.bind_ok hr
    cases hr
    rfl
  · rw [if_neg hstr, if_pos (hscan.resolve_left hstr)] at hr
    unfold tasmLexerCollectChar at hr
    dsimp only at hr
    split at hr
    · cases hr
      rfl
    · cases hr
      rfl

/-- A call that scans no string leaves the counter alone. -/
theorem LexCall.peek (hcall : LexCall lx t lx₁) (hstr : inString lx = false) : lx₁.peek = lx.peek := by
  obtain ⟨fuel, hr⟩ := hcall
  exact (getNextToken_advances (P := fun l => l.peek = lx.peek) (fun l hl => (advance_peek l).trans hl) rfl hstr).of_ok hr

/-- A blank is skipped. -/
theorem call_blank (hs : Calm lx) (hs₁ : Calm lx₁) (hblank : isBlank lx.currentChar = true) (hadv : tasmLexerAdvance lx = lx₁) :
    LexCall lx t lx₂ ↔ LexCall lx₁ t lx₂ := by
  unfold LexCall tasmLexerGetNextToken
  rw [hs.1, hs.2, hs₁.1, hs₁.2]
  simp only [Bool.false_eq_true, if_false]
  constructor
  · rintro ⟨fuel, hr⟩
    obtain ⟨l, hskip, hr⟩ := Except.bind_ok hr
    unfold tasmLexerSkipWhitespace at hskip ⊢
    cases fuel with
    | zero =>
      unfold advanceWhile at hskip
      rw [Loop.run, if_pos hblank] at hskip
      cases hskip
    | succ fuel =>
      rw [advanceWhile_turn hblank, hadv] at hskip
      have hskip : advanceWhile isBlank (fuel + 1) lx₁ = .ok l := Loop.run_mono (Nat.le_succ fuel) hskip (by simp)
      refine ⟨fuel + 1, ?_⟩
      rw [Except.bind_of_ok hskip]
      exact hr
  · rintro ⟨fuel, hr⟩
    obtain ⟨l, hskip, hr⟩ := Except.bind_ok hr
    unfold tasmLexerSkipWhitespace at hskip ⊢
    obtain ⟨r, hr, rfl⟩ := (Extends.collectToken (Nat.le_succ fuel) l).result _ hr trivial
    refine ⟨fuel + 1, ?_⟩
    rw [advanceWhile_turn hblank, hadv, Except.bind_of_ok hskip]
    exact hr

/-- So are all blanks in front of a token. -/
theorem Reads.skip (h : Reads (ws ++ cs) lx) (hws : ∀ c ∈ ws, isBlank c = true) :
    ∃ lx₁, Reads cs lx₁ ∧ lx₁.peek = lx.peek ∧ ∀ t l, LexCall lx t l ↔ LexCall lx₁ t l := by
  induction ws generalizing lx with
  | nil => exact ⟨lx, h, rfl, fun _ _ => Iff.rfl⟩
  | cons c ws ih =>
    have hblank := hws c (by simp)
    obtain ⟨-, hzero, heof, hquote, hapost, -⟩ := isBlank_plain c hblank
    obtain ⟨h₁, hrem, hprev⟩ := h.onText.take h.rest hzero heof
    have hreads : Reads (ws ++ cs) (tasmLexerAdvance lx) := .of_prev h₁ hrem (hprev ▸ hquote) (hprev ▸ hapost)
    obtain ⟨lx₁, h', hpeek, hcalls⟩ := ih hreads fun d hd => hws d (by simp [hd])
    have hcur : isBlank lx.currentChar = true := (congrArg isBlank (h.onText.current_eq h.rest)).trans hblank
    exact ⟨lx₁, h', hpeek.trans (advance_peek lx), fun t l => (call_blank h.calm hreads.calm hcur rfl).trans (hcalls t l)⟩

theorem LexTokens.congr (h : ∀ t l, LexCall lx t l ↔ LexCall lx₁ t l) : LexTokens lx ts ↔ LexTokens lx₁ ts := by
  constructor
  · intro hts
    cases hts with
    | eof call => exact .eof ((h _ _).mp call)
    | cons call ne rest => exact .cons ((h _ _).mp call) ne rest
  · intro hts
    cases hts with
    | eof call => exact .eof ((h _ _).mpr call)
    | cons call ne rest => exact .cons ((h _ _).mpr call) ne rest

/-- The token of a comment, if there is one. -/
def layoutTokens (w : List Byte) : List TasmToken := if w.contains (chr ';') then [⟨.comment, some (cstr ";")⟩] else []

/-- What is added at the end of a line is read as a comment, or not at all. -/
theorem Layout.calls (ha : Layout a) (hrest : EndsLine rest) (h : Reads (a ++ marked rest) lx) :
    ∃ lx₁, Reads (marked rest) lx₁ ∧ lx₁.peek = lx.peek ∧
      (chr ';' ∉ a ∧ (∀ t l, LexCall lx t l ↔ LexCall lx₁ t l) ∨ chr ';' ∈ a ∧ LexCall lx ⟨.comment, some (cstr ";")⟩ lx₁) := by
  cases ha with
  | blanks hws =>
    obtain ⟨lx₁, h₁, hpeek, hcalls⟩ := h.skip hws
    have hnone : chr ';' ∉ a := fun hmem => (isBlank_plain _ (hws _ hmem)).2.2.2.2.2 rfl
    exact ⟨lx₁, h₁, hpeek, .inl ⟨hnone, hcalls⟩⟩
  | comment hws hcs =>
    rw [List.append_assoc] at h
    obtain ⟨lx₁, h₁, hcalls⟩ := lexes_comment hws hcs hrest.row lx h
    cases hcalls with
    | cons call _ rest =>
      cases rest
      exact ⟨lx₁, h₁, call.peek h.string, .inr ⟨by simp, call⟩⟩

theorem Layout.tokens (ha : Layout a) (hrest : EndsLine rest) (h : Reads (a ++ marked rest) lx) :
    ∃ lx₁, Reads (marked rest) lx₁ ∧ lx₁.peek = lx.peek ∧
      ∀ ts, LexTokens lx ts ↔ ∃ us, ts = layoutTokens a ++ us ∧ LexTokens lx₁ us := by
  obtain ⟨lx₁, h₁, hpeek, ⟨hnone, hcalls⟩ | ⟨hcomment, call⟩⟩ := ha.calls hrest h
  · refine ⟨lx₁, h₁, hpeek, fun ts => (LexTokens.congr hcalls).trans ?_⟩
    simp [layoutTokens, hnone]
  · refine ⟨lx₁, h₁, hpeek, fun ts => ?_⟩
    rw [layoutTokens, if_pos (List.contains_iff_mem.mpr hcomment)]
    constructor
    · intro hts
      rcases hts.uncons call with ⟨he, -⟩ | hus
      · cases he
      · exact hus
    · rintro ⟨us, rfl, hus⟩
      exact .cons call (by simp) hus

theorem noted_append (hus : us = [] ∨ Grammar.first us = .endline) {w : List Byte} :
    Noted true (layoutTokens a ++ us) (layoutTokens (a ++ w) ++ us) := by
  unfold layoutTokens
  by_cases ha : chr ';' ∈ a
  · rw [if_pos (List.contains_iff_mem.mpr ha), if_pos (List.contains_iff_mem.mpr (List.mem_append_left w ha))]
    exact .refl _ _
  · rw [if_neg fun h => ha (List.contains_iff_mem.mp h)]
    split
    · exact .added rfl hus
    · exact .refl _ _

end Behind

end TileVm
