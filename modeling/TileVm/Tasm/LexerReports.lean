/-
What the lexer reports. Only the scan of a string literal prints an error: it prints none exactly
when every escape sequence is known and a quote comes before the text is longer than the line. This
holds on any source, whatever bytes it has.
-/
import TileVm.Lib.Relate
import TileVm.Tasm.LexerProgress

namespace TileVm

/-! ## Literals that close -/

/-- The characters up to a quote make at most `room` bytes, with known escape sequences only. -/
def literalCloses : Nat → List Byte → Bool
  | 0, cs => cs.headD 0 == chr '"'
  | room + 1, cs =>
    if cs.headD 0 = chr '"' then true
    else if cs.headD 0 = 0 ∨ cs.headD 0 = eofChar then false
    else if cs.headD 0 = chr '\\' then (unescape (cs.tail.headD 0)).isSome && literalCloses room cs.tail.tail
    else literalCloses room cs.tail

/-- The literal in front of the lexer closes before its text is longer than the line. -/
def LiteralCloses (lx : TasmLexer) : Prop := literalCloses (lineLength (remaining lx) + 1) (remaining lx) = true

section Literals

variable {room : Nat} {cs : List Byte}

theorem literalCloses_quote (h : cs.headD 0 = chr '"') : literalCloses room cs = true := by
  cases room with
  | zero => simpa [literalCloses] using h
  | succ room => rw [literalCloses, if_pos h]

theorem literalCloses_end (h : cs.headD 0 = 0 ∨ cs.headD 0 = eofChar) : literalCloses room cs = false := by
  have hq : cs.headD 0 ≠ chr '"' := by
    rcases h with h | h <;> rw [h] <;> decide
  cases room with
  | zero => simpa [literalCloses] using hq
  | succ room => rw [literalCloses, if_neg hq, if_pos h]

theorem literalCloses_escape (h : cs.headD 0 = chr '\\') :
    literalCloses (room + 1) cs = ((unescape (cs.tail.headD 0)).isSome && literalCloses room cs.tail.tail) := by
  rw [literalCloses, h, if_neg (by decide), if_neg (by decide), if_pos rfl]

theorem literalCloses_char (hq : cs.headD 0 ≠ chr '"') (hend : ¬ (cs.headD 0 = 0 ∨ cs.headD 0 = eofChar))
    (hb : cs.headD 0 ≠ chr '\\') : literalCloses (room + 1) cs = literalCloses room cs.tail := by
  rw [literalCloses, if_neg hq, if_neg hend, if_neg hb]

end Literals

/-! ## The window -/

/-- The characters of the lexer are those at the cursor, and a peek counter that was not reset is past the end. -/
structure OnText (lx : TasmLexer) : Prop where
  size : lx.sourceCodeSize = (lx.sourceCode.takeWhile (· ≠ 0)).length
  cursor : lx.cursor ≤ lx.sourceCodeSize
  current : lx.currentChar = lx.charAt lx.cursor
  next : lx.nextChar = lx.charAt (lx.cursor + 1)
  peek : lx.peek = 0 ∨ lx.sourceCodeSize ≤ lx.peek + lx.cursor

theorem OnText.init (src : List Byte) : OnText (tasmLexerInit src) := ⟨rfl, Nat.zero_le _, rfl, rfl, .inl rfl⟩

/-- `strlen` is the place of the first NUL. -/
theorem strlen_getD (src : List Byte) : src.getD (src.takeWhile (· ≠ 0)).length 0 = 0 := by
  induction src with
  | nil => rfl
  | cons c src ih =>
    by_cases hc : c = 0
    · simp [hc]
    · rw [List.takeWhile_cons_of_pos (by simpa using hc)]
      exact ih

theorem getD_below_strlen {src : List Byte} {i : Nat} (h : i < (src.takeWhile (· ≠ 0)).length) : src.getD i 0 ≠ 0 := by
  have hmem := List.mem_takeWhile_imp (List.getElem_mem h)
  rw [(List.takeWhile_prefix _).getElem h] at hmem
  rw [List.getD_eq_getElem?_getD, List.getElem?_eq_getElem, Option.getD_some]
  simpa using hmem

/-- The lexer stands at the marker or at the end of the text, and does not move. -/
def AtEnd (lx : TasmLexer) : Prop := lx.currentChar = 0 ∨ lx.currentChar = eofChar

namespace OnText

variable {lx : TasmLexer}

theorem remaining_head (h : OnText lx) : (remaining lx).headD 0 = lx.currentChar := by
  rw [h.current, TasmLexer.charAt, remaining, List.headD_eq_head?_getD, List.head?_drop, List.getD_eq_getElem?_getD]

theorem cursor_lt (h : OnText lx) (hend : ¬ AtEnd lx) : lx.cursor < lx.sourceCodeSize := by
  by_contra hge
  have hcur : lx.cursor = lx.sourceCodeSize := by have := h.cursor; omega
  refine hend (.inl ?_)
  rw [h.current, hcur, h.size]
  exact strlen_getD lx.sourceCode

/-- At the end the lexer stays. -/
theorem advance_end (h : OnText lx) (hend : AtEnd lx) : tasmLexerAdvance lx = lx := by
  have hline : lx.currentChar ≠ chr '\n' := by
    rcases hend with hc | hc <;> rw [hc] <;> decide
  have hstay : ¬ (lx.currentChar ≠ eofChar ∧ lx.cursor < lx.sourceCodeSize) := by
    rintro ⟨hne, hlt⟩
    have hzero := hend.resolve_right hne
    rw [h.current] at hzero
    exact getD_below_strlen (h.size ▸ hlt) hzero
  unfold tasmLexerAdvance
  rw [if_neg hline, if_neg hstay]

/-- Away from the end, one character is passed. -/
theorem advance_cons (h : OnText lx) (hend : ¬ AtEnd lx) : OnText (tasmLexerAdvance lx) ∧
    remaining lx = lx.currentChar :: remaining (tasmLexerAdvance lx) ∧ (tasmLexerAdvance lx).reports = lx.reports := by
  have hlt := h.cursor_lt hend
  have hmove : lx.currentChar ≠ eofChar ∧ lx.cursor < lx.sourceCodeSize := ⟨fun he => hend (.inr he), hlt⟩
  have hadv : ∃ row col, tasmLexerAdvance lx =
      { lx with prevChar := lx.currentChar, currentChar := lx.nextChar, cursor := lx.cursor + 1
                nextChar := lx.charAt (lx.cursor + 2), row, col } := by
    unfold tasmLexerAdvance
    by_cases hn : lx.currentChar = chr '\n'
    · rw [if_pos hn, if_pos hmove]
      exact ⟨_, _, rfl⟩
    · rw [if_neg hn, if_pos hmove]
      exact ⟨_, _, rfl⟩
  obtain ⟨row, col, hadv⟩ := hadv
  rw [hadv]
  refine ⟨⟨h.size, hlt, h.next, rfl, ?_⟩, ?_, rfl⟩
  · rcases h.peek with hp | hp
    · exact .inl hp
    · exact .inr (show lx.sourceCodeSize ≤ lx.peek + (lx.cursor + 1) by omega)
  · have hlen : lx.cursor < lx.sourceCode.length := by
      have hle := (List.takeWhile_prefix (· ≠ 0) (l := lx.sourceCode)).length_le
      rw [← h.size] at hle
      omega
    show lx.sourceCode.drop lx.cursor = _ :: lx.sourceCode.drop (lx.cursor + 1)
    rw [List.drop_eq_getElem_cons hlen, h.current, TasmLexer.charAt, List.getD_eq_getElem?_getD,
      List.getElem?_eq_getElem hlen, Option.getD_some]

theorem advance (h : OnText lx) : OnText (tasmLexerAdvance lx) ∧ (tasmLexerAdvance lx).reports = lx.reports := by
  by_cases hend : AtEnd lx
  · rw [h.advance_end hend]
    exact ⟨h, rfl⟩
  · obtain ⟨h', -, hr⟩ := h.advance_cons hend
    exact ⟨h', hr⟩

end OnText

/-! ## The scan of a string -/

section Scan

variable {lx : TasmLexer} {fuel : Nat}

/-- The first loop, when it ends, has found the end of the line: past the end of the text it never ends. -/
theorem lineEndLoop_onText (h : OnText lx) {r : TasmLexer × Nat} (hr : lineEndLoop fuel lx = .ok r) :
    r = ({ lx with peek := lineLength (remaining lx) + 1 }, lineLength (remaining lx)) ∧ lx.peek = 0 ∧
      lineLength (remaining lx) + lx.cursor < lx.sourceCodeSize := by
  let stop (c : Byte) : Bool := !(c != chr '\n' && c != eofChar)
  obtain ⟨s, hs, hr⟩ := Except.bind_ok hr
  cases hr
  -- past the end every peek is NUL, which ends no line
  let I (s : Byte × Nat × TasmLexer) : Prop :=
    (s.1 = 0 ∧ s.2.2.sourceCodeSize ≤ s.2.2.peek + s.2.2.cursor) ∨
      (s.1 = lx.charAt (lx.cursor + s.2.1) ∧ s.2.2 = { lx with peek := s.2.1 + 1 } ∧
        (∀ k < s.2.1, stop (lx.charAt (lx.cursor + k)) = false) ∧ lx.peek = 0 ∧ s.2.1 + lx.cursor < lx.sourceCodeSize)
  have hstuck (l : TasmLexer) (hl : l.sourceCodeSize ≤ l.peek + l.cursor) : tasmLexerPeek l = (0, l) := by
    unfold tasmLexerPeek tasmLexerPeekUpgraded
    rw [if_pos hl]
  have hfirst : I ((tasmLexerPeek lx).1, 0, (tasmLexerPeek lx).2) := by
    by_cases hpast : lx.sourceCodeSize ≤ lx.peek + lx.cursor
    · rw [hstuck lx hpast]
      exact .inl ⟨rfl, hpast⟩
    · have hzero : lx.peek = 0 := h.peek.resolve_right hpast
      have hpeek := peek_at lx 0 (by omega)
      rw [← hzero] at hpeek
      have hpeek : tasmLexerPeek lx = (lx.charAt (lx.cursor + 0), { lx with peek := 0 + 1 }) := by
        rw [← hzero]
        exact hpeek
      rw [hpeek]
      exact .inr ⟨rfl, rfl, fun k hk => absurd hk (Nat.not_lt_zero k), hzero, show 0 + lx.cursor < _ by omega⟩
  have hstep : ∀ s s', I s → (s.1 != chr '\n' && s.1 != eofChar) = true →
      (.ok ((tasmLexerPeek s.2.2).1, s.2.1 + 1, (tasmLexerPeek s.2.2).2) : Lex (Byte × Nat × TasmLexer)) = .ok s' → I s' := by
    rintro ⟨c, n, l⟩ _ hI hc ⟨⟩
    dsimp only [I] at hI hc ⊢
    rcases hI with ⟨-, hpast⟩ | ⟨rfl, rfl, hbefore, hzero, -⟩
    · rw [hstuck l hpast]
      exact .inl ⟨rfl, hpast⟩
    · by_cases hpast : lx.sourceCodeSize ≤ n + 1 + lx.cursor
      · rw [hstuck _ hpast]
        exact .inl ⟨rfl, hpast⟩
      · rw [peek_at lx (n + 1) (by omega)]
        refine .inr ⟨rfl, rfl, fun k hk => ?_, hzero, by omega⟩
        rcases Nat.lt_succ_iff_lt_or_eq.mp hk with hk | rfl
        · exact hbefore k hk
        · dsimp only [stop]
          rw [hc]
          rfl
  obtain ⟨hI, hexit⟩ := Loop.run_inv I hstep fuel _ s hfirst hs
  rcases hI with ⟨hzero, -⟩ | ⟨hchar, hstate, hbefore, hpk, hsize⟩
  · rw [hzero] at hexit
    cases hexit
  · rw [hstate]
    have hstop : stop (lx.charAt (lx.cursor + s.2.1)) = true := by
      dsimp only [stop]
      rw [← hchar, hexit]
      rfl
    have hlen : s.2.1 < (remaining lx).length := by
      by_contra hge
      rw [LexInv.charAt_add, List.getD_eq_getElem?_getD, List.getElem?_eq_none (by omega)] at hstop
      cases hstop
    have hget (k : Nat) (hk : k < (remaining lx).length) : lx.charAt (lx.cursor + k) = (remaining lx)[k] := by
      rw [LexInv.charAt_add, List.getD_eq_getElem?_getD, List.getElem?_eq_getElem hk, Option.getD_some]
    have hlength : lineLength (remaining lx) = s.2.1 := by
      refine (List.findIdx_eq hlen).mpr ⟨?_, fun k hk => ?_⟩
      · rw [← hget]
        exact hstop
      · rw [← hget]
        exact hbefore k hk
    rw [hlength]
    exact ⟨rfl, hpk, hsize⟩

theorem peekReset_onText (h : OnText lx) (k : Nat) : ∃ peek,
    tasmLexerPeekReset { lx with peek := k } = { lx with peek } ∧ OnText { lx with peek } := by
  unfold tasmLexerPeekReset tasmLexerPeekUpgraded
  split
  · rename_i hle
    exact ⟨k, rfl, h.size, h.cursor, h.current, h.next, .inr hle⟩
  · exact ⟨0, rfl, h.size, h.cursor, h.current, h.next, .inl rfl⟩

/-- The scan so far: nothing is reported and the rest decides, or something is reported and the literal does not close. -/
def Scanned (lx : TasmLexer) (lim : Nat) (s : TasmLexer × List Byte) : Prop :=
  OnText s.1 ∧ s.2.length ≤ lim + 1 ∧
    (s.1.reports = lx.reports ∧
        literalCloses (lim + 1 - s.2.length) (remaining s.1) = literalCloses (lim + 1) (remaining lx) ∨
      lx.reports.length < s.1.reports.length ∧ literalCloses (lim + 1) (remaining lx) = false)

/-- One turn of the second loop. -/
theorem strBody_scanned {lim : Nat} {s s' : TasmLexer × List Byte} (h : Scanned lx lim s)
    (hc : s.1.currentChar ≠ chr '"' ∧ s.2.length ≤ lim) (hb : strBody s = .ok s') : Scanned lx lim s' := by
  obtain ⟨l, text⟩ := s
  obtain ⟨htracks, -, hcase⟩ := h
  obtain ⟨hq, hlim⟩ := hc
  have hlim : text.length ≤ lim := hlim
  have hq : l.currentChar ≠ chr '"' := hq
  have hput (b : Byte) (l' : TasmLexer)
      (h : (tempPut text b).map (fun text => (tasmLexerAdvance l', text)) = .ok s') :
      s' = (tasmLexerAdvance l', text ++ [b]) := by
    obtain ⟨t, ht, rfl⟩ := Except.map_eq_ok h
    rw [(tempPut_ok.mp ht).2]
  have hhead := htracks.remaining_head
  unfold strBody at hb
  dsimp only at hb hcase hhead
  -- the body runs with room for another character
  obtain ⟨room, hroom⟩ : ∃ room, lim + 1 - text.length = room + 1 := ⟨lim - text.length, by omega⟩
  have hroom' (b : Byte) : lim + 1 - (text ++ [b]).length = room := by simp; omega
  by_cases hback : l.currentChar = chr '\\'
  · have hend : ¬ AtEnd l := by
      rintro (h | h) <;> rw [hback] at h <;> cases h
    obtain ⟨h₁, hrem, hrep⟩ := htracks.advance_cons hend
    have hhead₁ := h₁.remaining_head
    rw [if_pos hback] at hb
    -- an escape sequence leaves the rest behind its second character
    have hclose : literalCloses (room + 1) (remaining l) =
        ((unescape (tasmLexerAdvance l).currentChar).isSome && literalCloses room (remaining (tasmLexerAdvance l)).tail) := by
      rw [literalCloses_escape (hhead.trans hback), hrem, List.tail_cons, hhead₁]
    split at hb
    · rename_i b hesc
      obtain rfl := hput b _ hb
      have hend₁ : ¬ AtEnd (tasmLexerAdvance l) := by
        rintro (h | h) <;> rw [h] at hesc <;> cases hesc
      obtain ⟨h₂, hrem₁, hrep₁⟩ := h₁.advance_cons hend₁
      refine ⟨h₂, by simpa using hlim, ?_⟩
      rw [hrep₁, hrep]
      rcases hcase with ⟨hsame, hrest⟩ | hlonger
      · refine .inl ⟨hsame, ?_⟩
        rw [← hrest, hroom', hroom, hclose, hesc, hrem₁]
        rfl
      · exact .inr hlonger
    · rename_i hesc
      cases hb
      -- an unknown one is reported and puts nothing
      have hreported : OnText ((tasmLexerAdvance l).report (.unknownEscape (tasmLexerAdvance l).currentChar)) :=
        ⟨h₁.size, h₁.cursor, h₁.current, h₁.next, h₁.peek⟩
      obtain ⟨h₂, hrep₂⟩ := hreported.advance
      refine ⟨h₂, Nat.le_succ_of_le hlim, .inr ?_⟩
      rw [hrep₂]
      simp only [TasmLexer.report, List.length_append, List.length_singleton, hrep]
      rcases hcase with ⟨hsame, hrest⟩ | ⟨hlonger, hopen⟩
      · refine ⟨by rw [hsame]; omega, ?_⟩
        rw [← hrest, hroom, hclose, hesc]
        rfl
      · exact ⟨by omega, hopen⟩
  · rw [if_neg hback] at hb
    obtain rfl := hput _ _ hb
    obtain ⟨h₁, hrep⟩ := htracks.advance
    refine ⟨h₁, by simpa using hlim, ?_⟩
    rw [hrep]
    rcases hcase with ⟨hsame, hrest⟩ | hlonger
    · refine .inl ⟨hsame, ?_⟩
      rw [← hrest, hroom', hroom]
      by_cases hend : AtEnd l
      · -- the marker is put into the text again and again
        have hhead_end : (remaining l).headD 0 = 0 ∨ (remaining l).headD 0 = eofChar := by
          rw [hhead]
          exact hend
        rw [htracks.advance_end hend, literalCloses_end hhead_end, literalCloses_end hhead_end]
      · rw [literalCloses_char (by rwa [hhead]) (by rwa [hhead]) (by rwa [hhead]), (htracks.advance_cons hend).2.1,
          List.tail_cons]
    · exact .inr hlonger

/-- A string scan reports something if and only if the literal does not close. -/
theorem collectStr_reports (h : OnText lx) {r : TasmToken × TasmLexer} (hr : tasmLexerCollectStr fuel lx = .ok r) :
    OnText r.2 ∧ (LiteralCloses lx ∧ r.2.reports = lx.reports ∨
      ¬ LiteralCloses lx ∧ lx.reports.length < r.2.reports.length) := by
  obtain ⟨⟨l, lim⟩, hline, hr⟩ := Except.bind_ok hr
  obtain ⟨hk, -, -⟩ := lineEndLoop_onText h hline
  cases hk
  obtain ⟨peek, hpeek, hstart⟩ := peekReset_onText h (lineLength (remaining lx) + 1)
  obtain ⟨s, hloop, hr⟩ := Except.bind_ok hr
  rw [hpeek] at hloop
  obtain ⟨val, -, hr⟩ := Except.bind_ok hr
  cases hr
  have h0 : Scanned lx (lineLength (remaining lx)) ({ lx with peek }, []) :=
    ⟨hstart, Nat.zero_le _, .inl ⟨rfl, rfl⟩⟩
  obtain ⟨⟨htracks, hlen, hcase⟩, hexit⟩ := Loop.run_inv (Scanned lx (lineLength (remaining lx)))
    (fun s s' hs hc hb => strBody_scanned hs (strCond_true.mp hc) hb) fuel _ s h0 hloop
  have hhead := htracks.remaining_head
  unfold LiteralCloses
  dsimp only
  by_cases hq : s.1.currentChar = chr '"'
  · rw [if_neg (not_not.mpr hq)]
    rw [literalCloses_quote (hhead.trans hq)] at hcase
    refine ⟨htracks, ?_⟩
    rcases hcase with ⟨hsame, hclose⟩ | ⟨hlonger, hopen⟩
    · exact .inl ⟨hclose.symm, hsame⟩
    · exact .inr ⟨by simp [hopen], hlonger⟩
  · -- the scan has broken off at the end of the line
    rw [if_pos hq]
    have hfull : lineLength (remaining lx) + 1 - s.2.length = 0 := by
      have hcond : ¬ (s.1.currentChar ≠ chr '"' ∧ s.2.length ≤ lineLength (remaining lx)) := fun hc => by
        rw [strCond_true.mpr hc] at hexit
        cases hexit
      have hlt : ¬ s.2.length ≤ lineLength (remaining lx) := fun hle => hcond ⟨hq, hle⟩
      omega
    refine ⟨⟨htracks.size, htracks.cursor, htracks.current, htracks.next, htracks.peek⟩, .inr ?_⟩
    simp only [TasmLexer.report, List.length_append, List.length_singleton]
    rcases hcase with ⟨hsame, hclose⟩ | ⟨hlonger, hopen⟩
    · constructor
      · rw [← hclose, hfull, literalCloses, hhead]
        simpa using hq
      · rw [hsame]
        omega
    · exact ⟨by simp [hopen], by omega⟩

end Scan

/-! ## Calls -/

section Calls

variable {lx lx' : TasmLexer} {t : TasmToken} {fuel : Nat}

/-- The other collectors do nothing but advance. -/
theorem getNextToken_advances {P : TasmLexer → Prop} (hadv : ∀ lx, P lx → P (tasmLexerAdvance lx)) (h : P lx)
    (hstr : inString lx = false) : (tasmLexerGetNextToken fuel lx).Post (fun _ => True) fun r => P r.2 := by
  have any (e : Stop Fault) : True := trivial
  -- the loops keep what an advance keeps
  have skips (p : Byte → Bool) (lx : TasmLexer) (h : P lx) : (advanceWhile p fuel lx).Post (fun _ => True) P :=
    (Loop.run_post trivial P (fun s hs _ => .ok (hadv s hs)) fuel lx h).mono (fun _ h => h) fun _ h => h.1
  have collects (p : Byte → Bool) (s : TasmLexer × List Byte) (h : P s.1) :
      (collectWhile p fuel s).Post (fun _ => True) fun r => P r.1 := by
    unfold collectWhile
    refine (Loop.run_post trivial (fun s : TasmLexer × List Byte => P s.1) (fun s hs _ => ?_) fuel s h).mono
      (fun _ h => h) fun _ h => h.1
    exact .map (.ite (fun _ => hadv s.1 hs) fun _ => trivial)
  have ends (text : List Byte) (type : CStr → TokenType) {lx : TasmLexer} (h : P lx) :
      (tempEnd text >>= fun val => .ok (⟨type val, some val⟩, lx) : Lex (TasmToken × TasmLexer)).Post (fun _ => True)
        fun r => P r.2 := .bind_any any fun _ => .ok h
  unfold tasmLexerGetNextToken
  rw [hstr, if_neg (by decide)]
  refine .ite (fun _ => .ok ?_) fun _ => .bind ((skips isBlank lx h).mono (fun _ h => h) fun lx h => ?_)
  · unfold tasmLexerCollectChar
    dsimp only
    split
    · exact hadv _ (hadv _ h)
    · exact hadv _ h
  unfold collectToken
  refine .ite (fun _ => ?_) fun _ => .ite (fun _ => ?_) fun _ => .ite (fun _ => ?_) fun _ => .ite (fun _ => ?_) fun _ => ?_
  · exact .bind ((collects _ _ h).mono (fun _ h => h) fun r h => ends _ wordType h)
  · exact .bind ((collects _ _ (hadv _ (hadv _ h))).mono (fun _ h => h) fun r h => ends _ (fun _ => .binaryNumber) h)
  · exact .bind ((collects _ _ (hadv _ (hadv _ h))).mono (fun _ h => h) fun r h => ends _ (fun _ => .hexNumber) h)
  · refine .bind ((collects _ _ h).mono (fun _ h => h) fun r h => .ite (fun _ => ?_) fun _ =>
      ends _ (fun _ => .decimalNumber) h)
    exact .bind_any any fun _ => .bind ((collects _ _ (hadv _ h)).mono (fun _ h => h) fun r h =>
      ends _ (fun _ => .floatNumber) h)
  · unfold lexerCollectOneChars
    dsimp only
    split
    · exact .ok (hadv _ h)
    split
    · exact .bind ((skips _ lx h).mono (fun _ h => h) fun _ h => .ok h)
    repeat' split
    all_goals exact .ok (hadv _ h)

/-- A call reports something if and only if it scans a string literal that does not close. -/
theorem LexCall.reports (hc : LexCall lx t lx') (h : OnText lx) : OnText lx' ∧
    ((inString lx = true → LiteralCloses lx) ∧ lx'.reports = lx.reports ∨
      ¬ (inString lx = true → LiteralCloses lx) ∧ lx.reports.length < lx'.reports.length) := by
  obtain ⟨fuel, hr⟩ := hc
  cases hstr : inString lx with
  | true =>
    unfold tasmLexerGetNextToken at hr
    rw [if_pos hstr] at hr
    simpa using collectStr_reports h hr
  | false =>
    obtain ⟨h', hsame⟩ := (getNextToken_advances (P := fun l => OnText l ∧ l.reports = lx.reports)
      (fun l hl => ⟨hl.1.advance.1, hl.1.advance.2.trans hl.2⟩) ⟨h, rfl⟩ hstr).of_ok hr
    exact ⟨h', .inl ⟨by simp, hsame⟩⟩

/-- The lexer returns `TOKEN_EOF` at the marker only. -/
theorem getNextToken_ends (fuel : Nat) (lx : TasmLexer) :
    (tasmLexerGetNextToken fuel lx).Post (fun _ => True) fun r => r.1.type = .eof → r.2.currentChar = eofChar := by
  have any (e : Stop Fault) : True := trivial
  have ends (text : List Byte) {type : CStr → TokenType} (htype : ∀ v, type v ≠ .eof) (lx : TasmLexer) :
      (tempEnd text >>= fun val => .ok (⟨type val, some val⟩, lx) : Lex (TasmToken × TasmLexer)).Post (fun _ => True)
        fun r => r.1.type = .eof → r.2.currentChar = eofChar := .bind_any any fun v => .ok fun h => absurd h (htype v)
  unfold tasmLexerGetNextToken
  refine .ite (fun _ => ?_) fun _ => .ite (fun _ => ?_) fun _ => .bind_any any fun lx => ?_
  · exact .bind_any any fun _ => .bind_any any fun _ => ends _ (fun _ => by decide) _
  · unfold tasmLexerCollectChar
    dsimp only
    split <;> exact .ok nofun
  unfold collectToken
  refine .ite (fun _ => ?_) fun _ => .ite (fun _ => ?_) fun _ => .ite (fun _ => ?_) fun _ => .ite (fun _ => ?_) fun _ => ?_
  · exact .bind_any any fun _ => ends _ wordType_ne_eof _
  · exact .bind_any any fun _ => ends _ (fun _ => by decide) _
  · exact .bind_any any fun _ => ends _ (fun _ => by decide) _
  · refine .bind_any any fun _ => .ite (fun _ => ?_) fun _ => ends _ (fun _ => by decide) _
    exact .bind_any any fun _ => .bind_any any fun _ => ends _ (fun _ => by decide) _
  · unfold lexerCollectOneChars
    dsimp only
    split
    · exact .ok nofun
    split
    · exact .bind_any any fun _ => .ok nofun
    repeat' split
    all_goals refine .ok fun h => ?_
    all_goals first
      | contradiction
      | rw [advance_eof ‹_›]
        assumption

theorem LexCall.ends (hc : LexCall lx t lx') (he : t.type = .eof) : lx'.currentChar = eofChar := by
  obtain ⟨fuel, hr⟩ := hc
  exact (getNextToken_ends fuel lx).of_ok hr he

end Calls

/-! ## Whole runs -/

/-- The calls from `lx` on return the tokens `ts` and then `TOKEN_EOF`, and leave the lexer in `lx'`. -/
inductive LexRun : TasmLexer → List TasmToken → TasmLexer → Prop where
  | eof {lx lx' : TasmLexer} (call : LexCall lx .eof lx') : LexRun lx [] lx'
  | cons {lx lx₁ lx' : TasmLexer} {t : TasmToken} {ts : List TasmToken} (call : LexCall lx t lx₁) (ne : t.type ≠ .eof)
      (rest : LexRun lx₁ ts lx') : LexRun lx (t :: ts) lx'

section Runs

variable {lx lx' : TasmLexer} {ts : List TasmToken}

theorem LexRun.tokens (h : LexRun lx ts lx') : LexTokens lx ts := by
  induction h with
  | eof call => exact .eof call
  | cons call ne _ ih => exact .cons call ne ih

theorem LexTokens.run (h : LexTokens lx ts) : ∃ lx', LexRun lx ts lx' := by
  induction h with
  | eof call => exact ⟨_, .eof call⟩
  | cons call ne _ ih =>
    obtain ⟨lx', hrun⟩ := ih
    exact ⟨lx', .cons call ne hrun⟩

/-- A run reports nothing if and only if every string literal that it scans closes. -/
theorem LexRun.reports (h : LexRun lx ts lx') (ht : OnText lx) : lx.reports.length ≤ lx'.reports.length ∧
    (lx'.reports = lx.reports ↔ ∀ s, LexReach lx s → inString s = true → LiteralCloses s) := by
  induction h with
  | eof call =>
    rename_i lx lx'
    obtain ⟨-, ⟨hcloses, hsame⟩ | ⟨hopen, hlonger⟩⟩ := call.reports ht
    · refine ⟨by rw [hsame], iff_of_true hsame fun s hs hstr => ?_⟩
      rcases hs.next call with rfl | hs
      · exact hcloses hstr
      · have heof := call.ends rfl
        rw [LexReach.at_eof heof hs] at hstr
        simp [inString, heof] at hstr
    · refine ⟨Nat.le_of_lt hlonger, iff_of_false (fun he => ?_) fun hall => hopen (hall lx .refl)⟩
      rw [he] at hlonger
      omega
  | cons call ne rest ih =>
    rename_i lx lx₁ lx' t ts
    obtain ⟨ht₁, ⟨hcloses, hsame⟩ | ⟨hopen, hlonger⟩⟩ := call.reports ht
    · obtain ⟨hle, hiff⟩ := ih ht₁
      rw [hsame] at hle hiff
      refine ⟨hle, hiff.trans ⟨fun hall s hs hstr => ?_, fun hall s hs => hall s (hs.head ⟨t, call⟩)⟩⟩
      rcases hs.next call with rfl | hs
      · exact hcloses hstr
      · exact hall s hs hstr
    · obtain ⟨hle, -⟩ := ih ht₁
      refine ⟨by omega, iff_of_false (fun he => ?_) fun hall => hopen (hall lx .refl)⟩
      rw [he] at hle
      omega

end Runs

/-! ## Running the lexer -/

/-- The tokens of at most `n` calls, up to `TOKEN_EOF`, and the lexer behind them. -/
def runOf (fuel : Nat) : Nat → TasmLexer → Option (List TasmToken × TasmLexer)
  | 0, _ => none
  | n + 1, lx =>
    match tasmLexerGetNextToken fuel lx with
    | .error _ => none
    | .ok (t, lx') =>
      if t = .eof then some ([], lx')
      else if t.type = .eof then none
      else (runOf fuel n lx').map fun r => (t :: r.1, r.2)

theorem runOf_lex {fuel n : Nat} {lx lx' : TasmLexer} {ts : List TasmToken} (h : runOf fuel n lx = some (ts, lx')) :
    LexRun lx ts lx' := by
  induction n generalizing lx ts with
  | zero => cases h
  | succ n ih =>
    rw [runOf] at h
    split at h
    · cases h
    rename_i t l hcall
    split at h
    · rename_i heof
      subst heof
      cases h
      exact .eof ⟨fuel, hcall⟩
    · split at h
      · cases h
      · obtain ⟨⟨us, l'⟩, hus, heq⟩ := Option.map_eq_some_iff.mp h
        cases heq
        exact .cons ⟨fuel, hcall⟩ ‹_› (ih hus)

end TileVm
