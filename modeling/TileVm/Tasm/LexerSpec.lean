/-
What the lexer does, in terms of the characters that remain: the invariant of its state, and for
each collector the text it returns and what it leaves. A collector returns exactly when its text
fits into `temp_val`, and a string scan moreover only when the peek counter is 0.
-/
import TileVm.Tasm.Lexer

namespace TileVm

/-! ## The state -/

/-- A text as the lexer gets it: the bytes of a file, the `EOF` marker and a NUL. -/
def marked (text : List Byte) : List Byte := text ++ [eofChar, 0]

/-- A text without NUL and without the byte that reads as `EOF`. -/
def Plain (text : List Byte) : Prop := ∀ b ∈ text, b ≠ 0 ∧ b ≠ eofChar

/-- The characters from the cursor on. -/
def remaining (lx : TasmLexer) : List Byte := lx.sourceCode.drop lx.cursor

/-- The invariant: the three characters are those around the cursor, and a peek counter that was
not reset is past the end of the text. -/
structure LexInv (text : List Byte) (lx : TasmLexer) : Prop where
  plain : Plain text
  source : lx.sourceCode = marked text
  size : lx.sourceCodeSize = text.length + 1
  cursor : lx.cursor ≤ text.length
  current : lx.currentChar = lx.charAt lx.cursor
  next : lx.nextChar = lx.charAt (lx.cursor + 1)
  peek : lx.peek = 0 ∨ lx.sourceCodeSize ≤ lx.peek + lx.cursor

theorem LexInv.init {text : List Byte} (h : Plain text) : LexInv text (tasmLexerInit (marked text)) := by
  refine ⟨h, rfl, ?_, Nat.zero_le _, rfl, rfl, .inl rfl⟩
  show ((marked text).takeWhile (· ≠ 0)).length = _
  unfold marked
  rw [List.takeWhile_append_of_pos fun b hb => by simpa using (h b hb).1]
  simp [eofChar]

namespace LexInv

variable {text : List Byte} {lx : TasmLexer}

theorem remaining_eq (h : LexInv text lx) : remaining lx = text.drop lx.cursor ++ [eofChar, 0] := by
  unfold remaining
  rw [h.source, marked, List.drop_append_of_le_length h.cursor]

theorem remaining_length (h : LexInv text lx) : (remaining lx).length = text.length - lx.cursor + 2 := by
  rw [h.remaining_eq]; simp

theorem charAt_add (lx : TasmLexer) (k : Nat) : lx.charAt (lx.cursor + k) = (remaining lx).getD k 0 := by
  unfold TasmLexer.charAt remaining
  rw [List.getD_eq_getElem?_getD, List.getD_eq_getElem?_getD, List.getElem?_drop]

/-- At the marker the lexer does not move. -/
theorem at_eof (h : LexInv text lx) (hc : lx.currentChar = eofChar) :
    lx.cursor = text.length ∧ remaining lx = [eofChar, 0] ∧ tasmLexerAdvance lx = lx := by
  have hcur : lx.cursor = text.length := by
    by_contra hne
    have hlt : lx.cursor < text.length := by have := h.cursor; omega
    have hmem : lx.charAt lx.cursor ∈ text := by
      have := charAt_add lx 0
      rw [Nat.add_zero] at this
      rw [this, h.remaining_eq, List.getD_eq_getElem?_getD, List.getElem?_append_left (by simp; omega)]
      rw [List.getElem?_drop, Nat.add_zero, List.getElem?_eq_getElem hlt]
      exact List.getElem_mem hlt
    exact (h.plain _ hmem).2 (h.current ▸ hc)
  refine ⟨hcur, ?_, ?_⟩
  · rw [h.remaining_eq, hcur, List.drop_length]; rfl
  · simp [tasmLexerAdvance, hc, eofChar, chr]

/-- Elsewhere `tasm_lexer_advance` takes one character. -/
theorem advance_cons (h : LexInv text lx) (hc : lx.currentChar ≠ eofChar) :
    remaining lx = lx.currentChar :: remaining (tasmLexerAdvance lx) ∧ LexInv text (tasmLexerAdvance lx) ∧
      (tasmLexerAdvance lx).cursor = lx.cursor + 1 ∧ (tasmLexerAdvance lx).peek = lx.peek ∧
      (tasmLexerAdvance lx).currentChar = lx.nextChar := by
  have hlt : lx.cursor < text.length := by
    by_contra hge
    have hcur : lx.cursor = text.length := by have := h.cursor; omega
    refine hc ?_
    have := charAt_add lx 0
    rw [Nat.add_zero, h.remaining_eq, hcur, List.drop_length] at this
    rw [h.current, hcur, this]; rfl
  have hadv : ∃ row col, tasmLexerAdvance lx =
      { lx with prevChar := lx.currentChar, currentChar := lx.nextChar, cursor := lx.cursor + 1
                nextChar := lx.charAt (lx.cursor + 2), row, col } := by
    unfold tasmLexerAdvance
    have hsize : lx.cursor < lx.sourceCodeSize := by rw [h.size]; omega
    by_cases hn : lx.currentChar = chr '\n'
    · rw [if_pos hn, if_pos ⟨hc, hsize⟩]; exact ⟨_, _, rfl⟩
    · rw [if_neg hn, if_pos ⟨hc, hsize⟩]; exact ⟨_, _, rfl⟩
  obtain ⟨row, col, hadv⟩ := hadv
  rw [hadv]
  refine ⟨?_, ⟨h.plain, h.source, h.size, hlt, h.next, rfl, ?_⟩, rfl, rfl, rfl⟩
  · have hlen : lx.cursor < lx.sourceCode.length := by rw [h.source]; simp [marked]; omega
    show lx.sourceCode.drop lx.cursor = _ :: lx.sourceCode.drop (lx.cursor + 1)
    rw [List.drop_eq_getElem_cons hlen, h.current, TasmLexer.charAt, List.getD_eq_getElem?_getD,
      List.getElem?_eq_getElem hlen]; rfl
  · rcases h.peek with hp | hp
    · exact .inl hp
    · exact .inr (show lx.sourceCodeSize ≤ lx.peek + (lx.cursor + 1) by omega)

theorem advance (h : LexInv text lx) : LexInv text (tasmLexerAdvance lx) := by
  by_cases hc : lx.currentChar = eofChar
  · rw [(h.at_eof hc).2.2]; exact h
  · exact (h.advance_cons hc).2.1

theorem remaining_head (h : LexInv text lx) : ∃ cs, remaining lx = lx.currentChar :: cs := by
  by_cases hc : lx.currentChar = eofChar
  · exact ⟨_, by rw [(h.at_eof hc).2.1, hc]⟩
  · exact ⟨_, (h.advance_cons hc).1⟩

/-- Fewer characters remain exactly when the cursor has advanced. -/
theorem cursor_lt (h : LexInv text lx) {lx' : TasmLexer} (h' : LexInv text lx')
    (hlt : (remaining lx').length < (remaining lx).length) : lx.cursor < lx'.cursor := by
  rw [h.remaining_length, h'.remaining_length] at hlt
  have := h'.cursor
  omega

end LexInv

/-! ## Loops over a class of characters -/

section Collect

variable {text : List Byte} {lx : TasmLexer} {p : Byte → Bool} {fuel : Nat}

theorem advanceWhile_spec (hp : p eofChar = false) (h : LexInv text lx) {lx' : TasmLexer}
    (hr : advanceWhile p fuel lx = .ok lx') :
    LexInv text lx' ∧ lx'.peek = lx.peek ∧ remaining lx' = (remaining lx).dropWhile p := by
  let I (s : TasmLexer) : Prop :=
    LexInv text s ∧ s.peek = lx.peek ∧ (remaining s).dropWhile p = (remaining lx).dropWhile p
  have hstep : ∀ s s', I s → p s.currentChar = true → .ok (tasmLexerAdvance s) = (.ok s' : Lex TasmLexer) → I s' := by
    rintro s _ ⟨hs, hpk, hd⟩ hc ⟨⟩
    have hne : s.currentChar ≠ eofChar := fun he => by rw [he, hp] at hc; cases hc
    obtain ⟨hrem, hinv, -, hpk', -⟩ := hs.advance_cons hne
    refine ⟨hinv, hpk'.trans hpk, ?_⟩
    rw [← hd, hrem, List.dropWhile_cons_of_pos hc]
  obtain ⟨⟨hinv, hpk, hd⟩, hexit⟩ := Loop.run_inv I hstep fuel lx lx' ⟨h, rfl, rfl⟩ hr
  obtain ⟨cs, hcs⟩ := hinv.remaining_head
  rw [hcs, List.dropWhile_cons_of_neg (by simpa using hexit), ← hcs] at hd
  exact ⟨hinv, hpk, hd⟩

theorem advanceWhile_total (hp : p eofChar = false) (h : LexInv text lx) (hfuel : (remaining lx).length ≤ fuel) :
    ∃ lx', advanceWhile p fuel lx = .ok lx' := by
  have hstep : ∀ s, LexInv text s → p s.currentChar = true →
      ∃ s', (.ok (tasmLexerAdvance s) : Lex TasmLexer) = .ok s' ∧ LexInv text s' ∧
        (remaining s').length < (remaining s).length := by
    intro s hs hc
    have hne : s.currentChar ≠ eofChar := fun he => by rw [he, hp] at hc; cases hc
    refine ⟨_, rfl, hs.advance, ?_⟩
    rw [(hs.advance_cons hne).1]; simp
  obtain ⟨lx', hr, -⟩ := Loop.run_total (LexInv text) (fun s => (remaining s).length) hstep fuel lx h hfuel
  exact ⟨lx', hr⟩

theorem tempPut_ok {t t' : List Byte} {c : Byte} : tempPut t c = .ok t' ↔ t.length < 128 ∧ t' = t ++ [c] := by
  unfold tempPut
  split <;> simp [*, eq_comm]

theorem tempEnd_ok {t t' : List Byte} : tempEnd t = .ok t' ↔ t.length < 128 ∧ t' = t := by
  unfold tempEnd
  split <;> simp [*, eq_comm]

theorem collectWhile_spec (hp : p eofChar = false) (h : LexInv text lx) {t : List Byte}
    {r : TasmLexer × List Byte} (hr : collectWhile p fuel (lx, t) = .ok r) :
    LexInv text r.1 ∧ r.1.peek = lx.peek ∧ remaining r.1 = (remaining lx).dropWhile p ∧
      r.2 = t ++ (remaining lx).takeWhile p := by
  let I (s : TasmLexer × List Byte) : Prop :=
    LexInv text s.1 ∧ s.1.peek = lx.peek ∧ (remaining s.1).dropWhile p = (remaining lx).dropWhile p ∧
      s.2 ++ (remaining s.1).takeWhile p = t ++ (remaining lx).takeWhile p
  have hstep : ∀ s s', I s → p s.1.currentChar = true →
      (tempPut s.2 s.1.currentChar).map (fun text => (tasmLexerAdvance s.1, text)) = .ok s' → I s' := by
    rintro ⟨s, t1⟩ s' ⟨hs, hpk, hd, ht⟩ hc hb
    have hne : s.currentChar ≠ eofChar := fun he => by rw [he, hp] at hc; cases hc
    obtain ⟨hrem, hinv, -, hpk', -⟩ := hs.advance_cons hne
    cases hput : tempPut t1 s.currentChar with
    | error e => rw [hput] at hb; cases hb
    | ok t2 =>
      rw [hput] at hb
      cases hb
      obtain ⟨-, rfl⟩ := tempPut_ok.1 hput
      refine ⟨hinv, hpk'.trans hpk, ?_, ?_⟩
      · rw [← hd]
        show _ = (remaining s).dropWhile p
        rw [hrem, List.dropWhile_cons_of_pos hc]
      · rw [← ht]
        show _ = t1 ++ (remaining s).takeWhile p
        rw [hrem, List.takeWhile_cons_of_pos hc]
        simp
  obtain ⟨⟨hinv, hpk, hd, ht⟩, hexit⟩ := Loop.run_inv I hstep fuel (lx, t) r ⟨h, rfl, rfl, rfl⟩ hr
  obtain ⟨cs, hcs⟩ := hinv.remaining_head
  have hneg : ¬ p r.1.currentChar = true := by simpa using hexit
  rw [hcs, List.dropWhile_cons_of_neg hneg, ← hcs] at hd
  rw [hcs, List.takeWhile_cons_of_neg hneg, List.append_nil] at ht
  exact ⟨hinv, hpk, hd, ht⟩

theorem collectWhile_total (hp : p eofChar = false) (h : LexInv text lx) {t : List Byte}
    (hlen : t.length + ((remaining lx).takeWhile p).length ≤ 128) (hfuel : (remaining lx).length ≤ fuel) :
    ∃ r, collectWhile p fuel (lx, t) = .ok r := by
  let I (s : TasmLexer × List Byte) : Prop :=
    LexInv text s.1 ∧ s.2.length + ((remaining s.1).takeWhile p).length ≤ 128
  have hstep : ∀ s, I s → p s.1.currentChar = true →
      ∃ s', (tempPut s.2 s.1.currentChar).map (fun text => (tasmLexerAdvance s.1, text)) = .ok s' ∧ I s' ∧
        (remaining s'.1).length < (remaining s.1).length := by
    rintro ⟨s, t1⟩ ⟨hs, hl⟩ hc
    have hne : s.currentChar ≠ eofChar := fun he => by rw [he, hp] at hc; cases hc
    obtain ⟨hrem, hinv, -⟩ := hs.advance_cons hne
    have hl : t1.length + ((remaining s).takeWhile p).length ≤ 128 := hl
    rw [hrem, List.takeWhile_cons_of_pos hc, List.length_cons] at hl
    have hl : t1.length + (((remaining (tasmLexerAdvance s)).takeWhile p).length + 1) ≤ 128 := hl
    refine ⟨(tasmLexerAdvance s, t1 ++ [s.currentChar]), ?_, ⟨hinv, ?_⟩, ?_⟩
    · show (tempPut t1 s.currentChar).map _ = _
      rw [tempPut_ok.2 ⟨by omega, rfl⟩]; rfl
    · show (t1 ++ [s.currentChar]).length + _ ≤ 128
      rw [List.length_append]; simp only [List.length_singleton]; omega
    · show (remaining (tasmLexerAdvance s)).length < (remaining s).length
      rw [hrem]; simp
  obtain ⟨r, hr, -⟩ := Loop.run_total I (fun s => (remaining s.1).length) hstep fuel (lx, t) ⟨h, hlen⟩ hfuel
  exact ⟨r, hr⟩

/-- The text that a loop collects, and the characters that it leaves. -/
theorem collectWhile_returns (hp : p eofChar = false) (h : LexInv text lx) (t : List Byte)
    (hlen : t.length + ((remaining lx).takeWhile p).length ≤ 128) (hfuel : (remaining lx).length ≤ fuel) :
    ∃ lx', collectWhile p fuel (lx, t) = .ok (lx', t ++ (remaining lx).takeWhile p) ∧ LexInv text lx' ∧
      remaining lx' = (remaining lx).dropWhile p := by
  obtain ⟨⟨lx', t'⟩, hr⟩ := collectWhile_total hp h hlen hfuel
  obtain ⟨hinv, -, hrem, ht⟩ := collectWhile_spec hp h hr
  exact ⟨lx', by rw [hr, show t' = _ from ht], hinv, hrem⟩

end Collect

/-! ## String literals -/

/-- The number of characters up to the end of the line or of the text. -/
def lineLength (cs : List Byte) : Nat := cs.findIdx fun c => !(c != chr '\n' && c != eofChar)

/-- The length of the text that a string scan collects from the characters `cs` when it already has
`n` bytes and the line is `lim` characters long: up to the closing quote, at most `lim + 1`. At the
marker the scan appends the marker until it has that many. -/
def litLength (lim : Nat) : List Byte → Nat → Nat
  | [], n => n
  | [_], n => n
  | c :: e :: cs, n =>
    if lim < n ∨ c = chr '"' then n
    else if c = eofChar then lim + 1
    else if c ≠ chr '\\' then litLength lim (e :: cs) (n + 1)
    else if e = eofChar then litLength lim (e :: cs) n
    else if (unescape e).isSome then litLength lim cs (n + 1)
    else litLength lim cs n

theorem le_litLength (lim : Nat) : ∀ (cs : List Byte) (n : Nat), n ≤ lim + 1 → n ≤ litLength lim cs n
  | [], n, _ => Nat.le_refl n
  | [_], n, _ => Nat.le_refl n
  | c :: e :: cs, n, hn => by
    unfold litLength
    split_ifs with h1 h2 h3 h4 h5
    · exact Nat.le_refl n
    · exact hn
    · have := le_litLength lim (e :: cs) (n + 1) (by omega); omega
    · exact le_litLength lim (e :: cs) n hn
    · have := le_litLength lim cs (n + 1) (by omega); omega
    · exact le_litLength lim cs n hn

section Str

variable {text : List Byte} {lx : TasmLexer} {fuel : Nat}

/-- The line ends in the text, at the marker at the latest. -/
theorem lineLength_le (h : LexInv text lx) : lx.cursor + lineLength (remaining lx) ≤ text.length := by
  by_contra hgt
  have hcur := h.cursor
  have hk : text.length - lx.cursor < lineLength (remaining lx) := by omega
  have hlen : text.length - lx.cursor < (remaining lx).length := by rw [h.remaining_length]; omega
  have hnot := List.not_of_lt_findIdx hk
  simp only [h.remaining_eq] at hnot
  rw [List.getElem_append_right (by simp)] at hnot
  simp at hnot

theorem peek_at (lx : TasmLexer) (k : Nat) (hk : k + lx.cursor < lx.sourceCodeSize) :
    tasmLexerPeek { lx with peek := k } = (lx.charAt (lx.cursor + k), { lx with peek := k + 1 }) := by
  unfold tasmLexerPeek tasmLexerPeekUpgraded
  rw [if_neg (by simpa using hk)]
  rfl

/-- With the counter at 0 and a line that ends in the text, the scan finds the end of the line and leaves the characters
alone. -/
theorem lineEndLoop_ends (hpk : lx.peek = 0) (hline : lineLength (remaining lx) + lx.cursor < lx.sourceCodeSize)
    (hlen : lineLength (remaining lx) < (remaining lx).length) (hfuel : lineLength (remaining lx) ≤ fuel) :
    lineEndLoop fuel lx =
      .ok ({ lx with peek := lineLength (remaining lx) + 1 }, lineLength (remaining lx)) := by
  have hget (k : Nat) (hk : k < (remaining lx).length) : lx.charAt (lx.cursor + k) = (remaining lx)[k] := by
    rw [LexInv.charAt_add, List.getD_eq_getElem?_getD, List.getElem?_eq_getElem hk, Option.getD_some]
  have hbelow : ∀ k < lineLength (remaining lx),
      (lx.charAt (lx.cursor + k) != chr '\n' && lx.charAt (lx.cursor + k) != eofChar) = true := by
    intro k hk
    have hnot := List.not_of_lt_findIdx hk
    rw [hget k (Nat.lt_trans hk hlen)]
    simpa using hnot
  have hstop : (lx.charAt (lx.cursor + lineLength (remaining lx)) != chr '\n' &&
      lx.charAt (lx.cursor + lineLength (remaining lx)) != eofChar) = false := by
    have hst : (!((remaining lx)[lineLength (remaining lx)] != chr '\n' &&
        (remaining lx)[lineLength (remaining lx)] != eofChar)) = true := @List.findIdx_getElem _ _ _ hlen
    rw [hget _ hlen]
    rwa [Bool.not_eq_true'] at hst
  let I (s : Byte × Nat × TasmLexer) : Prop := s.2.1 ≤ lineLength (remaining lx) ∧
    s = (lx.charAt (lx.cursor + s.2.1), s.2.1, { lx with peek := s.2.1 + 1 })
  have hstep : ∀ s : Byte × Nat × TasmLexer, I s → (s.1 != chr '\n' && s.1 != eofChar) = true →
      ∃ s', (.ok ((tasmLexerPeek s.2.2).1, s.2.1 + 1, (tasmLexerPeek s.2.2).2) : Lex _) = .ok s' ∧ I s' ∧
        lineLength (remaining lx) - s'.2.1 < lineLength (remaining lx) - s.2.1 := by
    rintro ⟨c, k, s⟩ ⟨hk, heq⟩ hc
    have hk : k ≤ lineLength (remaining lx) := hk
    obtain ⟨rfl, -, rfl⟩ : c = lx.charAt (lx.cursor + k) ∧ k = k ∧ s = { lx with peek := k + 1 } := by
      simpa using heq
    have hlt : k < lineLength (remaining lx) := by
      rcases Nat.lt_or_eq_of_le hk with hlt | rfl
      · exact hlt
      · rw [hstop] at hc; cases hc
    refine ⟨_, rfl, ⟨hlt, ?_⟩, ?_⟩
    · show ((tasmLexerPeek { lx with peek := k + 1 }).1, k + 1, (tasmLexerPeek { lx with peek := k + 1 }).2) = _
      rw [peek_at lx (k + 1) (by omega)]
    · show lineLength (remaining lx) - (k + 1) < lineLength (remaining lx) - k
      omega
  have hfirst : tasmLexerPeek lx = (lx.charAt (lx.cursor + 0), { lx with peek := 0 + 1 }) := by
    rw [← peek_at lx 0 (by omega), ← hpk]
  obtain ⟨⟨c, k, s⟩, hr, ⟨hk, heq⟩, hexit⟩ := Loop.run_total I
    (fun s => lineLength (remaining lx) - s.2.1) hstep fuel (lx.charAt (lx.cursor + 0), 0, { lx with peek := 0 + 1 })
    ⟨Nat.zero_le _, rfl⟩ (show lineLength (remaining lx) - 0 ≤ fuel by omega)
  have hk : k ≤ lineLength (remaining lx) := hk
  obtain ⟨rfl, -, rfl⟩ : c = lx.charAt (lx.cursor + k) ∧ k = k ∧ s = { lx with peek := k + 1 } := by
    simpa using heq
  obtain rfl : k = lineLength (remaining lx) := by
    rcases Nat.lt_or_eq_of_le hk with hlt | rfl
    · rw [hbelow k hlt] at hexit; cases hexit
    · rfl
  unfold lineEndLoop
  rw [hfirst]
  exact Except.bind_of_ok hr

theorem lineEndLoop_total (h : LexInv text lx) (hpk : lx.peek = 0) (hfuel : (remaining lx).length ≤ fuel) :
    lineEndLoop fuel lx =
      .ok ({ lx with peek := lineLength (remaining lx) + 1 }, lineLength (remaining lx)) := by
  have hle := lineLength_le h
  have hlen := h.remaining_length
  have hsize := h.size
  exact lineEndLoop_ends hpk (by omega) (by omega) (by omega)

theorem lineEndLoop_spec (h : LexInv text lx) (hpk : lx.peek = 0) {r : TasmLexer × Nat}
    (hr : lineEndLoop fuel lx = .ok r) :
    r = ({ lx with peek := lineLength (remaining lx) + 1 }, lineLength (remaining lx)) := by
  have htotal := lineEndLoop_total h hpk (Nat.le_max_right fuel (remaining lx).length)
  have hmono : lineEndLoop (max fuel (remaining lx).length) lx = .ok r := by
    unfold lineEndLoop at hr ⊢
    obtain ⟨s, hs, hr⟩ := Except.bind_ok hr
    rw [Except.bind_of_ok (Loop.run_mono (Nat.le_max_left _ _) hs nofun)]
    exact hr
  rw [htotal] at hmono
  exact (Except.ok.inj hmono).symm

/-- With the counter past the end every peek returns NUL, and the scan never ends. -/
theorem lineEndLoop_diverges (h : LexInv text lx) (hpk : lx.peek ≠ 0) : lineEndLoop fuel lx = .error .fuel := by
  have hpast : lx.sourceCodeSize ≤ lx.peek + lx.cursor := h.peek.resolve_left hpk
  have hpeek : tasmLexerPeek lx = (0, lx) := by
    unfold tasmLexerPeek tasmLexerPeekUpgraded
    rw [if_pos hpast]
  unfold lineEndLoop
  rw [hpeek]
  refine Except.bind_of_error (Loop.run_diverges (fun s => s.1 = 0 ∧ s.2.2 = lx) ?_ fuel _ ⟨rfl, rfl⟩)
  rintro ⟨c, k, s⟩ ⟨rfl, rfl⟩
  refine ⟨show ((0 : Byte) != chr '\n' && (0 : Byte) != eofChar) = true by decide, _, rfl, ?_, ?_⟩
  · show (tasmLexerPeek s).1 = 0
    rw [hpeek]
  · show (tasmLexerPeek s).2 = s
    rw [hpeek]

/-- The counter after the reset. -/
theorem peekReset_spec (h : LexInv text lx) (k : Nat) : ∃ peek,
    tasmLexerPeekReset { lx with peek := k } = { lx with peek } ∧ LexInv text { lx with peek } := by
  unfold tasmLexerPeekReset tasmLexerPeekUpgraded
  split
  · rename_i hle
    exact ⟨k, rfl, h.plain, h.source, h.size, h.cursor, h.current, h.next, .inr hle⟩
  · exact ⟨0, rfl, h.plain, h.source, h.size, h.cursor, h.current, h.next, .inl rfl⟩

theorem LexInv.report (h : LexInv text lx) (e : LexError) : LexInv text (lx.report e) :=
  ⟨h.plain, h.source, h.size, h.cursor, h.current, h.next, h.peek⟩

theorem litLength_eof {lim n : Nat} (hn : n ≤ lim + 1) : litLength lim [eofChar, 0] n = lim + 1 := by
  rw [litLength]
  by_cases h : lim < n
  · rw [if_pos (.inl h)]; omega
  · rw [if_neg (not_or.2 ⟨h, by decide⟩), if_pos rfl]

theorem litLength_plain {lim n : Nat} {c e : Byte} {cs : List Byte} (hn : n ≤ lim) (hq : c ≠ chr '"')
    (he : c ≠ eofChar) (hb : c ≠ chr '\\') : litLength lim (c :: e :: cs) n = litLength lim (e :: cs) (n + 1) := by
  rw [litLength, if_neg (not_or.2 ⟨by omega, hq⟩), if_neg he, if_pos hb]

theorem litLength_escape {lim n : Nat} {e : Byte} {cs : List Byte} (hn : n ≤ lim) (he : e ≠ eofChar) :
    litLength lim (chr '\\' :: e :: cs) n =
      if (unescape e).isSome then litLength lim cs (n + 1) else litLength lim cs n := by
  rw [litLength, if_neg (not_or.2 ⟨by omega, by decide⟩), if_neg (by decide), if_neg (by decide), if_neg he]

theorem litLength_escape_eof {lim n : Nat} {cs : List Byte} (hn : n ≤ lim) :
    litLength lim (chr '\\' :: eofChar :: cs) n = litLength lim (eofChar :: cs) n := by
  rw [litLength, if_neg (not_or.2 ⟨by omega, by decide⟩), if_neg (by decide), if_neg (by decide), if_pos rfl]

theorem unescape_eof : unescape eofChar = none := by decide

theorem strBody_total {t : List Byte} (hroom : t.length < 128) : ∃ s', strBody (lx, t) = .ok s' := by
  have hput : ∀ b, tempPut t b = .ok (t ++ [b]) := fun b => tempPut_ok.2 ⟨hroom, rfl⟩
  unfold strBody
  dsimp only
  split
  · split
    · exact ⟨_, congrArg (Except.map _) (hput _)⟩
    · exact ⟨_, rfl⟩
  · exact ⟨_, congrArg (Except.map _) (hput _)⟩

/-- One turn of the string scan keeps the length that the text will have, and takes a character or
makes the text longer. -/
theorem strBody_spec {lim : Nat} {t : List Byte} {s' : TasmLexer × List Byte} (h : LexInv text lx)
    (hq : lx.currentChar ≠ chr '"') (hlim : t.length ≤ lim) (hb : strBody (lx, t) = .ok s') :
    LexInv text s'.1 ∧ litLength lim (remaining s'.1) s'.2.length = litLength lim (remaining lx) t.length ∧
      t.length ≤ s'.2.length ∧ s'.2.length ≤ t.length + 1 ∧
      ((lx.currentChar = eofChar ∧ s'.1 = lx ∧ s'.2.length = t.length + 1) ∨
        (remaining s'.1).length < (remaining lx).length) := by
  have hlen : ∀ b, (t ++ [b]).length = t.length + 1 := fun b => by simp
  unfold strBody at hb
  dsimp only at hb
  by_cases hbs : lx.currentChar = chr '\\'
  · rw [if_pos hbs] at hb
    have hne : lx.currentChar ≠ eofChar := by rw [hbs]; decide
    obtain ⟨hrem, h1, -, -, -⟩ := h.advance_cons hne
    rw [hbs] at hrem
    cases hu : unescape (tasmLexerAdvance lx).currentChar with
    | some b =>
      -- a known escape sequence: its byte is appended
      rw [hu] at hb
      obtain ⟨t', ht', rfl⟩ := Except.map_eq_ok hb
      obtain ⟨-, rfl⟩ := tempPut_ok.1 ht'
      have hne1 : (tasmLexerAdvance lx).currentChar ≠ eofChar := fun he => by
        rw [he, unescape_eof] at hu; cases hu
      obtain ⟨hrem1, h2, -, -, -⟩ := h1.advance_cons hne1
      refine ⟨h2, ?_, by simp, by simp, .inr (by rw [hrem, hrem1]; exact Nat.lt_succ_of_lt (Nat.lt_succ_self _))⟩
      rw [hrem, hrem1, litLength_escape hlim hne1, hu, hlen, if_pos (Option.isSome_some ..)]
    | none =>
      -- an unknown one is reported and dropped; at the marker the backslash alone is
      rw [hu] at hb
      cases hb
      have h1r := h1.report (.unknownEscape (tasmLexerAdvance lx).currentChar)
      by_cases hne1 : (tasmLexerAdvance lx).currentChar = eofChar
      · obtain ⟨-, hrem1, hstay⟩ := h1r.at_eof hne1
        refine ⟨h1r.advance, ?_, Nat.le_refl _, Nat.le_succ _, .inr ?_⟩
        · rw [hstay, hrem1, hrem, show remaining (tasmLexerAdvance lx) = [eofChar, 0] from hrem1,
            litLength_escape_eof hlim]
        · rw [hstay, hrem]
          exact Nat.lt_succ_self _
      · obtain ⟨hrem1, h2, -, -, -⟩ := h1r.advance_cons hne1
        have hrem1 : remaining (tasmLexerAdvance lx) = (tasmLexerAdvance lx).currentChar :: _ := hrem1
        refine ⟨h2, ?_, Nat.le_refl _, Nat.le_succ _, .inr ?_⟩
        · rw [hrem, hrem1, litLength_escape hlim hne1, hu]; rfl
        · rw [hrem, hrem1]; simp only [List.length_cons]; omega
  · rw [if_neg hbs] at hb
    obtain ⟨t', ht', rfl⟩ := Except.map_eq_ok hb
    obtain ⟨-, rfl⟩ := tempPut_ok.1 ht'
    by_cases hne : lx.currentChar = eofChar
    · -- at the marker: the marker is appended, and the cursor stays
      obtain ⟨-, hrem, hstay⟩ := h.at_eof hne
      refine ⟨h.advance, ?_, by simp, by simp, .inl ⟨hne, hstay, hlen _⟩⟩
      show litLength lim (remaining (tasmLexerAdvance lx)) _ = _
      rw [hstay, hrem, hlen, litLength_eof (by omega), litLength_eof (by omega)]
    · obtain ⟨hrem, h1, -, -, -⟩ := h.advance_cons hne
      obtain ⟨cs, hcs⟩ := h1.remaining_head
      refine ⟨h1, ?_, by simp, by simp, .inr (by rw [hrem]; simp)⟩
      rw [hrem, hcs, litLength_plain hlim hq hne hbs, hlen]

/-! The scan of a string literal, from the character after the quote. -/

/-- The condition of the second loop. -/
theorem strCond_true {lim : Nat} {s : TasmLexer × List Byte} :
    (s.1.currentChar != chr '"' && !decide (lim < s.2.length)) = true ↔
      s.1.currentChar ≠ chr '"' ∧ s.2.length ≤ lim := by
  simp

theorem litLength_exit {lim : Nat} {s : TasmLexer × List Byte} (h : LexInv text s.1)
    (hexit : (s.1.currentChar != chr '"' && !decide (lim < s.2.length)) = false) :
    litLength lim (remaining s.1) s.2.length = s.2.length := by
  have hstop : lim < s.2.length ∨ s.1.currentChar = chr '"' := by
    simp only [Bool.and_eq_false_iff, bne_eq_false_iff_eq, Bool.not_eq_false', decide_eq_true_eq] at hexit
    exact hexit.symm
  obtain ⟨cs, hcs⟩ := h.remaining_head
  have hlen := h.remaining_length
  rw [hcs] at hlen ⊢
  obtain ⟨e, cs, rfl⟩ : ∃ e cs', cs = e :: cs' := List.exists_cons_of_length_pos (by simp at hlen; omega)
  rw [litLength, if_pos hstop]

theorem strLoop_spec {lim : Nat} (h : LexInv text lx) (hq : lx.currentChar ≠ chr '"') (he : lx.currentChar ≠ eofChar)
    {s' : TasmLexer × List Byte} (hr : Loop.run
      (fun (s : TasmLexer × List Byte) => s.1.currentChar != chr '"' && !decide (lim < s.2.length))
      strBody fuel (lx, []) = .ok s') :
    LexInv text s'.1 ∧ s'.2.length = litLength lim (remaining lx) 0 ∧
      (remaining s'.1).length < (remaining lx).length := by
  let I (s : TasmLexer × List Byte) : Prop :=
    LexInv text s.1 ∧ litLength lim (remaining s.1) s.2.length = litLength lim (remaining lx) 0 ∧
      (s = (lx, []) ∨ (remaining s.1).length < (remaining lx).length)
  have hstep : ∀ s s', I s → (s.1.currentChar != chr '"' && !decide (lim < s.2.length)) = true →
      strBody s = .ok s' → I s' := by
    rintro ⟨s, t⟩ s' ⟨hs, hl, hprog⟩ hc hb
    obtain ⟨hsq, hlim⟩ := strCond_true.1 hc
    obtain ⟨hs', hl', -, -, hmove⟩ := strBody_spec hs hsq hlim hb
    refine ⟨hs', hl'.trans hl, .inr ?_⟩
    rcases hprog with heq | hprog
    · cases heq
      rcases hmove with ⟨hee, -, -⟩ | hmove
      · exact absurd hee he
      · exact hmove
    · rcases hmove with ⟨-, hsame, -⟩ | hmove
      · rw [hsame]; exact hprog
      · exact Nat.lt_trans hmove hprog
  obtain ⟨⟨hinv, hl, hprog⟩, hexit⟩ := Loop.run_inv I hstep fuel (lx, []) s' ⟨h, rfl, .inl rfl⟩ hr
  refine ⟨hinv, (litLength_exit hinv hexit).symm.trans hl, ?_⟩
  rcases hprog with rfl | hprog
  · rw [strCond_true.2 ⟨hq, Nat.zero_le _⟩] at hexit; cases hexit
  · exact hprog

theorem strLoop_total {lim : Nat} (h : LexInv text lx) (hlit : litLength lim (remaining lx) 0 ≤ 127)
    (hfuel : (remaining lx).length + (lim + 1) ≤ fuel) :
    ∃ s', Loop.run (fun (s : TasmLexer × List Byte) => s.1.currentChar != chr '"' && !decide (lim < s.2.length))
      strBody fuel (lx, []) = .ok s' := by
  let I (s : TasmLexer × List Byte) : Prop := LexInv text s.1 ∧
    litLength lim (remaining s.1) s.2.length = litLength lim (remaining lx) 0 ∧ s.2.length ≤ lim + 1
  let μ (s : TasmLexer × List Byte) : Nat := (remaining s.1).length + (lim + 1 - s.2.length)
  have hstep : ∀ s, I s → (s.1.currentChar != chr '"' && !decide (lim < s.2.length)) = true →
      ∃ s', strBody s = .ok s' ∧ I s' ∧ μ s' < μ s := by
    rintro ⟨s, t⟩ ⟨hs, hl, hle⟩ hc
    have hs : LexInv text s := hs
    have hle : t.length ≤ lim + 1 := hle
    obtain ⟨hsq, hlim⟩ := strCond_true.1 hc
    have hroom : t.length < 128 := by
      have := le_litLength lim (remaining s) t.length hle
      have hl : litLength lim (remaining s) t.length = _ := hl
      omega
    obtain ⟨s', hb⟩ : ∃ s', strBody (s, t) = .ok s' := strBody_total hroom
    have hlim : t.length ≤ lim := hlim
    obtain ⟨hs', hl', hge, hle', hmove⟩ := strBody_spec hs hsq hlim hb
    refine ⟨s', hb, ⟨hs', hl'.trans hl, by omega⟩, ?_⟩
    show (remaining s'.1).length + (lim + 1 - s'.2.length) < (remaining s).length + (lim + 1 - t.length)
    rcases hmove with ⟨-, hsame, hlen⟩ | hmove
    · rw [hsame]; omega
    · omega
  obtain ⟨s', hr, -⟩ := Loop.run_total I μ hstep fuel (lx, []) ⟨h, rfl, Nat.zero_le _⟩ hfuel
  exact ⟨s', hr⟩

end Str

end TileVm
