/-
The window of the lexer and its position in the text. One function moves the cursor; what it keeps, every
collector keeps: the three characters are those at the cursor, no read goes past the last NUL, and the
row counts the newlines. The column counts the characters since the last newline, but the first line
begins at 0 and every other at 1.
-/
import TileVm.Tasm.LexerProgress
import TileVm.Tasm.LexerReads
import TileVm.Tasm.LexerReports

namespace TileVm

open Logged (Keeps)

/-! ## Positions -/

/-- The row behind these characters. -/
def rowOf (before : List Byte) : Nat := 1 + before.count (chr '\n')

/-- How many of these characters lie behind the last newline. -/
def colOf (before : List Byte) : Nat := (before.reverse.takeWhile (· ≠ chr '\n')).length

/-- The state of the lexer on a text. The column is one too high behind the first line. -/
structure Placed (text : List Byte) (lx : TasmLexer) : Prop where
  source : lx.sourceCode = marked text
  size : lx.sourceCodeSize = ((marked text).takeWhile (· ≠ 0)).length
  cursor : lx.cursor ≤ lx.sourceCodeSize
  inText : lx.cursor ≤ text.length
  current : (marked text)[lx.cursor]? = some lx.currentChar
  next : (marked text)[lx.cursor + 1]? = some lx.nextChar
  start : lx.cursor = 0 → lx.prevChar = lx.currentChar
  prev : 0 < lx.cursor → (marked text)[lx.cursor - 1]? = some lx.prevChar
  row : lx.row = rowOf ((marked text).take lx.cursor)
  col : lx.col = colOf ((marked text).take lx.cursor) + if chr '\n' ∈ (marked text).take lx.cursor then 1 else 0

section Position

variable {text before : List Byte} {lx lx' : TasmLexer} {c : Byte}

theorem rowOf_append : rowOf (before ++ [c]) = if c = chr '\n' then rowOf before + 1 else rowOf before := by
  unfold rowOf
  rw [List.count_append, List.count_singleton]
  by_cases hc : c = chr '\n'
  · simp [hc, Nat.add_assoc]
  · simp [hc]

theorem colOf_append : colOf (before ++ [c]) = if c = chr '\n' then 0 else colOf before + 1 := by
  unfold colOf
  rw [List.reverse_append, List.reverse_singleton, List.singleton_append, List.takeWhile_cons]
  by_cases hc : c = chr '\n'
  · simp [hc]
  · simp [hc]

theorem marked_length : (marked text).length = text.length + 2 := by
  simp [marked]

theorem marked_eof : (marked text)[text.length]? = some eofChar := by
  simp [marked]

theorem marked_strlen : ((marked text).takeWhile (· ≠ 0)).length ≤ text.length + 1 := by
  have hsplit : marked text = (text ++ [eofChar]) ++ [0] := by simp [marked]
  have hle : ((marked text).takeWhile (· ≠ 0)).length ≤ (marked text).length := (List.takeWhile_prefix _).length_le
  by_contra hlt
  rw [marked_length] at hle
  have hall : (marked text).takeWhile (· ≠ 0) = marked text :=
    (List.takeWhile_prefix _).eq_of_length (by rw [marked_length]; omega)
  have hmem : (0 : Byte) ∈ (marked text).takeWhile (· ≠ 0) := by
    rw [hall, hsplit]
    simp
  simpa using List.mem_takeWhile_imp hmem

/-! ## Moving -/

/-- A move takes the next character into the window and goes on to the next column, or to a new line. -/
theorem advance_moves (hmove : lx.currentChar ≠ eofChar ∧ lx.cursor < lx.sourceCodeSize) :
    tasmLexerAdvance lx = { lx with
      prevChar := lx.currentChar
      currentChar := lx.nextChar
      cursor := lx.cursor + 1
      nextChar := lx.charAt (lx.cursor + 2)
      row := if lx.currentChar = chr '\n' then lx.row + 1 else lx.row
      col := if lx.currentChar = chr '\n' then 1 else lx.col + 1 } := by
  unfold tasmLexerAdvance
  by_cases hn : lx.currentChar = chr '\n'
  · simp only [if_pos hn]
    rw [if_pos hmove]
    rfl
  · simp only [if_neg hn]
    rw [if_pos hmove]

theorem advance_stays (hstay : ¬ (lx.currentChar ≠ eofChar ∧ lx.cursor < lx.sourceCodeSize)) (hn : lx.currentChar ≠ chr '\n') :
    tasmLexerAdvance lx = lx := by
  unfold tasmLexerAdvance
  rw [if_neg hn]
  exact if_neg hstay

namespace Placed

theorem init (text : List Byte) : Placed text (tasmLexerInit (marked text)) := by
  have h0 : (marked text)[0]? = some ((marked text).getD 0 0) := by
    cases text <;> rfl
  have h1 : (marked text)[0 + 1]? = some ((marked text).getD 1 0) := by
    rcases text with _ | ⟨b, _ | ⟨c, text⟩⟩ <;> rfl
  exact ⟨rfl, rfl, Nat.zero_le _, Nat.zero_le _, h0, h1, fun _ => rfl, fun h => absurd h (Nat.lt_irrefl 0), rfl, rfl⟩

/-- In front of the marker there is a place to move to. -/
theorem lt_length (h : Placed text lx) (hne : lx.currentChar ≠ eofChar) : lx.cursor < text.length := by
  refine Nat.lt_of_le_of_ne h.inText fun heq => hne ?_
  have hcur := h.current
  rw [heq, marked_eof] at hcur
  exact (Option.some.inj hcur).symm

/-- Where the lexer does not move, it is not at a newline. -/
theorem ne_newline (h : Placed text lx) (hstay : ¬ (lx.currentChar ≠ eofChar ∧ lx.cursor < lx.sourceCodeSize)) :
    lx.currentChar ≠ chr '\n' := by
  by_cases heof : lx.currentChar = eofChar
  · rw [heof]
    decide
  · have hend : lx.cursor = lx.sourceCodeSize := by
      have := h.cursor
      by_contra hne
      exact hstay ⟨heof, by omega⟩
    have hzero := strlen_getD (marked text)
    rw [← h.size, ← hend, List.getD_eq_getElem?_getD, h.current, Option.getD_some] at hzero
    rw [hzero]
    decide

/-- One step of the lexer keeps its place. -/
theorem advance (h : Placed text lx) : Placed text (tasmLexerAdvance lx) := by
  by_cases hmove : lx.currentChar ≠ eofChar ∧ lx.cursor < lx.sourceCodeSize
  · rw [advance_moves hmove]
    have hlt := h.lt_length hmove.1
    have hnext : (marked text)[lx.cursor + 2]? = some (lx.charAt (lx.cursor + 2)) := by
      unfold TasmLexer.charAt
      rw [h.source, List.getD_eq_getElem?_getD, List.getElem?_eq_getElem (by rw [marked_length]; omega)]
      rfl
    have htake : (marked text).take (lx.cursor + 1) = (marked text).take lx.cursor ++ [lx.currentChar] := by
      rw [List.take_add_one, h.current]
      rfl
    refine ⟨h.source, h.size, hmove.2, hlt, h.next, hnext, fun h0 => absurd h0 (Nat.succ_ne_zero _), fun _ => h.current, ?_, ?_⟩
    · dsimp only
      rw [htake, rowOf_append, h.row]
    · dsimp only
      rw [htake, colOf_append, h.col]
      by_cases hn : lx.currentChar = chr '\n'
      · simp [hn]
      · simp [hn, Ne.symm hn, Nat.add_right_comm]
  · rw [advance_stays hmove (h.ne_newline hmove)]
    exact h

theorem withPeek (h : Placed text lx) (peek : Nat) : Placed text { lx with peek } :=
  ⟨h.source, h.size, h.cursor, h.inText, h.current, h.next, h.start, h.prev, h.row, h.col⟩

theorem report (h : Placed text lx) (e : LexError) : Placed text (lx.report e) :=
  ⟨h.source, h.size, h.cursor, h.inText, h.current, h.next, h.start, h.prev, h.row, h.col⟩

end Placed

/-! ## Reads -/

/-- The place is not behind the NUL at the end of the text. -/
def InSource (text : List Byte) (i : Nat) : Prop := i ≤ text.length + 1

/-- What a part of the lexer is to keep: it reads the text only, and leaves the lexer in its place. -/
abbrev KeepsPlace {α : Type} (text : List Byte) (state : α → TasmLexer) (x : LexReads α) : Prop :=
  Keeps (InSource text) (fun r => Placed text (state r)) x

theorem advance_keeps (h : Placed text lx) : KeepsPlace text id (tasmLexerAdvanceLogged lx) := by
  unfold tasmLexerAdvanceLogged
  refine .ite (fun hmove => .bind (.tell ?_) fun _ _ => .pure h.advance) fun _ => .pure h.advance
  have hlt := h.lt_length hmove.1
  show lx.cursor + 1 + 1 ≤ text.length + 1
  omega

/-- A peek reads in front of the NUL, and the reset reads the character before the cursor. -/
theorem peek_keeps {reset : Bool} (h : Placed text lx) (hreset : reset = true → 0 < lx.cursor) :
    Keeps (InSource text) (fun r => Placed text r.2 ∧ r.2.cursor = lx.cursor) (tasmLexerPeekUpgradedLogged lx reset) := by
  have hplaced : Placed text (tasmLexerPeekUpgraded lx reset).2 ∧ (tasmLexerPeekUpgraded lx reset).2.cursor = lx.cursor := by
    unfold tasmLexerPeekUpgraded
    split
    · exact ⟨h, rfl⟩
    · exact ⟨h.withPeek _, rfl⟩
  unfold tasmLexerPeekUpgradedLogged
  refine .ite (fun _ => .pure hplaced) fun hlt => .bind (.tell ?_) fun _ _ => .pure hplaced
  have hsize : ((marked text).takeWhile (· ≠ 0)).length ≤ text.length + 1 := marked_strlen
  have hinText := h.inText
  rw [← h.size] at hsize
  unfold InSource
  cases reset with
  | true =>
    have hpos := hreset rfl
    rw [if_pos rfl, show lx.cursor + 0 + (2 ^ 64 - 1) = lx.cursor - 1 + 2 ^ 64 by omega, Nat.add_mod_right]
    have hmod := Nat.mod_le (lx.cursor - 1) (2 ^ 64)
    omega
  | false =>
    rw [if_neg Bool.false_ne_true, show lx.cursor + (lx.peek + 1) + (2 ^ 64 - 1) = lx.cursor + lx.peek + 2 ^ 64 by omega,
      Nat.add_mod_right]
    have hmod := Nat.mod_le (lx.cursor + lx.peek) (2 ^ 64)
    omega

theorem advanceWhile_keeps (p : Byte → Bool) (fuel : Nat) (h : Placed text lx) :
    KeepsPlace text id (advanceWhileLogged p fuel lx) :=
  .run (fun _ hs _ => advance_keeps hs) fuel h

theorem collectWhile_keeps (p : Byte → Bool) (fuel : Nat) {s : TasmLexer × List Byte} (h : Placed text s.1) :
    KeepsPlace text Prod.fst (collectWhileLogged p fuel s) := by
  refine .run (fun s hs _ => ?_) fuel h
  exact .lift_bind fun _ => (advance_keeps hs).bind fun _ h => .pure h

/-- The end of a collector: the text goes into the arena. -/
theorem tempEnd_keeps {text' : List Byte} (token : CStr → TasmToken) (h : Placed text lx) :
    KeepsPlace text Prod.snd (Logged.lift (tempEnd text') >>= fun val => pure (token val, lx) : LexReads _) :=
  .lift_bind fun _ => .pure h

theorem collectId_keeps (fuel : Nat) (h : Placed text lx) : KeepsPlace text Prod.snd (tasmLexerCollectIdLogged fuel lx) :=
  (collectWhile_keeps _ fuel h).bind fun _ hs => tempEnd_keeps (fun val => ⟨wordType val, some val⟩) hs

theorem collectNumber_keeps (fuel : Nat) (h : Placed text lx) :
    KeepsPlace text Prod.snd (tasmLexerCollectNumberLogged fuel lx) := by
  refine (collectWhile_keeps _ fuel h).bind fun s hs => .ite (fun _ => ?_) fun _ => ?_
  · refine .lift_bind fun t => (advance_keeps hs).bind fun l hl => ?_
    exact (collectWhile_keeps _ fuel (s := (l, t)) hl).bind fun _ hs => tempEnd_keeps (fun val => ⟨.floatNumber, some val⟩) hs
  · exact tempEnd_keeps (fun val => ⟨.decimalNumber, some val⟩) hs

theorem collectPrefixed_keeps (p : Byte → Bool) (type : TokenType) (fuel : Nat) (h : Placed text lx) :
    KeepsPlace text Prod.snd (collectPrefixedLogged p type fuel lx) :=
  (advance_keeps h).bind fun _ h₁ => (advance_keeps h₁).bind fun l h₂ =>
    (collectWhile_keeps p fuel (s := (l, [])) h₂).bind fun _ hs => tempEnd_keeps (fun val => ⟨type, some val⟩) hs

theorem collectChar_keeps (h : Placed text lx) : KeepsPlace text Prod.snd (tasmLexerCollectCharLogged lx) :=
  (advance_keeps h).bind fun _ h₁ => .ite (fun _ => (advance_keeps h₁).bind fun _ h₂ => .pure h₂) fun _ => .pure h₁

theorem lineEndLoop_keeps (fuel : Nat) (h : Placed text lx) :
    Keeps (InSource text) (fun r => Placed text r.1 ∧ r.1.cursor = lx.cursor) (lineEndLoopLogged fuel lx) := by
  refine (peek_keeps h fun h => absurd h Bool.false_ne_true).bind fun first hfirst => ?_
  refine .bind (.run (I := fun s => Placed text s.2.2 ∧ s.2.2.cursor = lx.cursor) (fun s hs _ => ?_) fuel hfirst)
    fun s hs => .pure hs
  exact (peek_keeps hs.1 fun h => absurd h Bool.false_ne_true).bind fun next hnext => .pure ⟨hnext.1, hnext.2.trans hs.2⟩

theorem strBody_keeps {s : TasmLexer × List Byte} (h : Placed text s.1) : KeepsPlace text Prod.fst (strBodyLogged s) := by
  have put {l : TasmLexer} {t : List Byte} (b : Byte) (hl : Placed text l) : KeepsPlace text Prod.fst
      (do let t ← Logged.lift (tempPut t b); let l ← tasmLexerAdvanceLogged l; pure (l, t) : LexReads (TasmLexer × List Byte)) :=
    .lift_bind fun _ => (advance_keeps hl).bind fun _ h => .pure h
  unfold strBodyLogged
  refine .ite (fun _ => (advance_keeps h).bind fun l hl => ?_) fun _ => put _ h
  split
  · exact put _ hl
  · exact (advance_keeps (Placed.report hl _)).bind fun _ h => .pure h

/-- Behind a quote the lexer is not at the start of the text. -/
theorem Placed.cursor_pos (h : Placed text lx) (hstr : inString lx = true) : 0 < lx.cursor := by
  refine Nat.pos_of_ne_zero fun h0 => ?_
  unfold inString at hstr
  rw [h.start h0] at hstr
  simp only [Bool.and_eq_true, beq_iff_eq, bne_iff_ne] at hstr
  exact hstr.1.1.1.2 hstr.1.1.1.1

theorem collectStr_keeps (fuel : Nat) (h : Placed text lx) (hstr : inString lx = true) :
    KeepsPlace text Prod.snd (tasmLexerCollectStrLogged fuel lx) := by
  refine (lineEndLoop_keeps fuel h).bind fun r hr => ?_
  refine (peek_keeps hr.1 fun _ => hr.2 ▸ h.cursor_pos hstr).bind fun r' hr' => ?_
  refine .bind (.run (I := fun s => Placed text s.1) (fun s hs _ => strBody_keeps hs) fuel hr'.1) fun s hs => ?_
  refine tempEnd_keeps (fun val => ⟨.string, some val⟩) ?_
  split
  · exact Placed.report hs _
  · exact hs

theorem collectOneChars_keeps (fuel : Nat) (h : Placed text lx) :
    KeepsPlace text Prod.snd (lexerCollectOneCharsLogged fuel lx) := by
  have one (token : TasmToken) : KeepsPlace text Prod.snd
      (do let lx ← tasmLexerAdvanceLogged lx; pure (token, lx) : LexReads (TasmToken × TasmLexer)) :=
    (advance_keeps h).bind fun _ h => .pure h
  unfold lexerCollectOneCharsLogged
  refine .ite (fun _ => one _) fun _ => .ite (fun _ => (advanceWhile_keeps _ fuel h).bind fun _ h => .pure h) fun _ => ?_
  exact .ite (fun _ => one _) fun _ => .ite (fun _ => one _) fun _ => .ite (fun _ => one _) fun _ =>
    .ite (fun _ => one _) fun _ => .ite (fun _ => one _) fun _ => .ite (fun _ => one _) fun _ => one _

theorem collectToken_keeps (fuel : Nat) (h : Placed text lx) : KeepsPlace text Prod.snd (collectTokenLogged fuel lx) :=
  .ite (fun _ => collectId_keeps fuel h) fun _ => .ite (fun _ => collectPrefixed_keeps _ _ fuel h) fun _ =>
    .ite (fun _ => collectPrefixed_keeps _ _ fuel h) fun _ => .ite (fun _ => collectNumber_keeps fuel h) fun _ =>
    collectOneChars_keeps fuel h

/-- A call of the lexer reads the text only, and leaves the lexer in its place. -/
theorem getNextToken_keeps (fuel : Nat) (h : Placed text lx) :
    KeepsPlace text Prod.snd (tasmLexerGetNextTokenLogged fuel lx) :=
  .ite (fun hstr => collectStr_keeps fuel h hstr) fun _ => .ite (fun _ => collectChar_keeps h) fun _ =>
    (advanceWhile_keeps _ fuel h).bind fun _ h => collectToken_keeps fuel h

theorem LexReach.placed (hr : LexReach (tasmLexerInit (marked text)) lx) : Placed text lx := by
  induction hr with
  | refl => exact .init text
  | tail _ hstep ih =>
    obtain ⟨t, fuel, hcall⟩ := hstep
    exact (getNextToken_keeps fuel ih).result _ ((getNextTokenLogged_result fuel _).trans hcall)

/-! ## The promise -/

/-- The window is that of the cursor, the next call reads up to the NUL only, the row counts the newlines before the cursor
and the column the characters behind the last of them, on every line from 0 as on the first one. The two are `int`s. -/
structure InStep (text : List Byte) (lx : TasmLexer) : Prop where
  current : (marked text)[lx.cursor]? = some lx.currentChar
  next : (marked text)[lx.cursor + 1]? = some lx.nextChar
  prev : 0 < lx.cursor → (marked text)[lx.cursor - 1]? = some lx.prevChar
  reads : ∀ fuel, ∀ i ∈ (tasmLexerGetNextTokenLogged fuel lx).log, InSource text i
  row : lx.row = rowOf ((marked text).take lx.cursor)
  col : lx.col = colOf ((marked text).take lx.cursor)
  ints : lx.row < 2 ^ 31 ∧ lx.col < 2 ^ 31

theorem initReads_inSource (text : List Byte) : ∀ i ∈ tasmLexerInitReads (marked text), InSource text i := by
  intro i hi
  have hsize : ((marked text).takeWhile (· ≠ 0)).length ≤ text.length + 1 := marked_strlen
  unfold InSource
  rcases List.mem_append.mp hi with hi | hi
  · simp only [List.mem_cons, List.not_mem_nil, or_false] at hi
    omega
  · rw [List.mem_range] at hi
    omega

/-- On the first line the row is 1 and the column is the number of characters. -/
theorem firstLine (hn : chr '\n' ∉ before) : rowOf before = 1 ∧ colOf before = before.length := by
  constructor
  · unfold rowOf
    rw [List.count_eq_zero_of_not_mem hn]
  · unfold colOf
    rw [List.takeWhile_eq_self_iff.mpr, List.length_reverse]
    intro c hc
    have hne : c ≠ chr '\n' := fun heq => hn (heq ▸ List.mem_reverse.mp hc)
    simpa using hne

theorem Placed.take_length (h : Placed text lx) : ((marked text).take lx.cursor).length = lx.cursor := by
  rw [List.length_take, marked_length]
  have := h.inText
  omega

/-- After any number of calls on a text of any bytes: the lexer is in step with it if and only if it is still on the first
line, and not 2^31 characters into it. -/
theorem lexer_inStep_iff (hr : LexReach (tasmLexerInit (marked text)) lx) :
    (∀ i ∈ tasmLexerInitReads (marked text), InSource text i) ∧ InStep text lx ↔
      chr '\n' ∉ (marked text).take lx.cursor ∧ lx.cursor < 2 ^ 31 := by
  have h := hr.placed
  have hcol := h.col
  constructor
  · rintro ⟨-, hstep⟩
    have hn : chr '\n' ∉ (marked text).take lx.cursor := by
      intro hmem
      rw [if_pos hmem, hstep.col] at hcol
      omega
    have hint := hstep.ints.2
    rw [hstep.col, (firstLine hn).2, h.take_length] at hint
    exact ⟨hn, hint⟩
  · rintro ⟨hn, hint⟩
    rw [if_neg hn, Nat.add_zero] at hcol
    refine ⟨initReads_inSource text, h.current, h.next, h.prev, fun fuel => (getNextToken_keeps fuel h).log, h.row, hcol, ?_, ?_⟩
    · rw [h.row, (firstLine hn).1]
      decide
    · rw [hcol, (firstLine hn).2, h.take_length]
      exact hint

end Position

/-- `hlt`, after one call. -/
theorem inStep_hlt : ∃ lx, LexReach (tasmLexerInit (marked (cstr "hlt"))) lx ∧ lx.cursor = 3 ∧
    (∀ i ∈ tasmLexerInitReads (marked (cstr "hlt")), InSource (cstr "hlt") i) ∧ InStep (cstr "hlt") lx := by
  obtain ⟨lx, hcall, hcursor⟩ : ∃ lx, LexCall (tasmLexerInit (marked (cstr "hlt"))) ⟨.op .halt, some (cstr "hlt")⟩ lx ∧
      lx.cursor = 3 := ⟨_, ⟨10, rfl⟩, rfl⟩
  have hreach : LexReach (tasmLexerInit (marked (cstr "hlt"))) lx := .single ⟨_, hcall⟩
  refine ⟨lx, hreach, hcursor, (lexer_inStep_iff hreach).2 ⟨?_, ?_⟩⟩
  · rw [hcursor]
    decide
  · rw [hcursor]
    decide

/-- An empty line in front of it: no character of the second line lies before the cursor, and the column is 1. -/
theorem second_line_shifted : ∃ lx, LexReach (tasmLexerInit (marked (cstr "\nhlt"))) lx ∧ lx.cursor = 1 ∧ lx.row = 2 ∧
    lx.col = 1 ∧ colOf ((marked (cstr "\nhlt")).take 1) = 0 ∧ ¬ InStep (cstr "\nhlt") lx := by
  obtain ⟨lx, hcall, hcursor, hrow, hcol⟩ : ∃ lx,
      LexCall (tasmLexerInit (marked (cstr "\nhlt"))) ⟨.endline, some (cstr "endl")⟩ lx ∧
        lx.cursor = 1 ∧ lx.row = 2 ∧ lx.col = 1 := ⟨_, ⟨10, rfl⟩, rfl, rfl, rfl⟩
  refine ⟨lx, .single ⟨_, hcall⟩, hcursor, hrow, hcol, by decide, fun h => ?_⟩
  have heq := h.col
  rw [hcursor, hcol] at heq
  exact absurd heq (by decide)

end TileVm
