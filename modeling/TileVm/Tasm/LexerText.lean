/-
The lexer over a text that is known in advance: for each kind of token, the characters that spell it,
what may stand behind them, and the call that takes them. The rules compose along the text.
-/
import TileVm.Tasm.LexerReports

namespace TileVm

/-! ## Advancing over known characters -/

theorem advanceWhile_turn {p : Byte → Bool} {lx : TasmLexer} {fuel : Nat} (hp : p lx.currentChar = true) :
    advanceWhile p (fuel + 1) lx = advanceWhile p fuel (tasmLexerAdvance lx) := by
  unfold advanceWhile
  rw [Loop.run, if_pos hp]
  rfl

theorem collectWhile_turn {p : Byte → Bool} {lx : TasmLexer} {t : List Byte} {fuel : Nat} (hp : p lx.currentChar = true)
    (hroom : t.length < 128) :
    collectWhile p (fuel + 1) (lx, t) = collectWhile p fuel (tasmLexerAdvance lx, t ++ [lx.currentChar]) := by
  unfold collectWhile
  rw [Loop.run, if_pos hp]
  dsimp only
  rw [tempPut_ok.mpr ⟨hroom, rfl⟩]
  rfl

namespace OnText

variable {lx : TasmLexer} {c : Byte} {cs w rest : List Byte} {p : Byte → Bool}

theorem current_eq (h : OnText lx) (hrem : remaining lx = cs) : lx.currentChar = cs.headD 0 := by
  rw [← h.remaining_head, hrem]

theorem next_eq (h : OnText lx) (hrem : remaining lx = cs) : lx.nextChar = cs.getD 1 0 := by
  rw [h.next, LexInv.charAt_add, hrem]

theorem advance_prev (h : OnText lx) (hend : ¬ AtEnd lx) : (tasmLexerAdvance lx).prevChar = lx.currentChar := by
  have hmove : lx.currentChar ≠ eofChar ∧ lx.cursor < lx.sourceCodeSize := ⟨fun he => hend (.inr he), h.cursor_lt hend⟩
  unfold tasmLexerAdvance
  by_cases hn : lx.currentChar = chr '\n'
  · rw [if_pos hn, if_pos hmove]
  · rw [if_neg hn, if_pos hmove]

/-- One character further. -/
theorem take (h : OnText lx) (hrem : remaining lx = c :: cs) (hzero : c ≠ 0) (heof : c ≠ eofChar) :
    OnText (tasmLexerAdvance lx) ∧ remaining (tasmLexerAdvance lx) = cs ∧ (tasmLexerAdvance lx).prevChar = c := by
  have hcur : lx.currentChar = c := h.current_eq hrem
  have hend : ¬ AtEnd lx := by
    rintro (he | he)
    · exact hzero (hcur.symm.trans he)
    · exact heof (hcur.symm.trans he)
  obtain ⟨h', hcons, -⟩ := h.advance_cons hend
  rw [hrem] at hcons
  exact ⟨h', (List.cons.inj hcons).2.symm, (h.advance_prev hend).trans hcur⟩

/-- A loop takes the characters of its class, up to one that is not. -/
theorem advanceWhile (h : OnText lx) (hrem : remaining lx = w ++ rest)
    (hw : ∀ c ∈ w, p c = true ∧ c ≠ 0 ∧ c ≠ eofChar) (hrest : p (rest.headD 0) = false) :
    ∃ lx', OnText lx' ∧ remaining lx' = rest ∧ lx'.prevChar = w.getLastD lx.prevChar ∧
      ∀ fuel, w.length ≤ fuel → advanceWhile p fuel lx = .ok lx' := by
  induction w generalizing lx with
  | nil =>
    refine ⟨lx, h, hrem, rfl, fun fuel _ => Loop.run_exit ?_⟩
    rw [h.current_eq hrem]
    exact hrest
  | cons c w ih =>
    obtain ⟨hp, hzero, heof⟩ := hw c (by simp)
    obtain ⟨h₁, hrem₁, hprev⟩ := h.take hrem hzero heof
    obtain ⟨lx', h', hrem', hprev', hrun⟩ := ih h₁ hrem₁ fun d hd => hw d (by simp [hd])
    refine ⟨lx', h', hrem', ?_, ?_⟩
    · rw [hprev', hprev]
      cases w <;> rfl
    · rintro fuel hfuel
      obtain ⟨fuel, rfl⟩ : ∃ n, fuel = n + 1 := ⟨fuel - 1, by simp at hfuel; omega⟩
      rw [advanceWhile_turn ((congrArg p (h.current_eq hrem)).trans hp)]
      exact hrun fuel (by simpa using hfuel)

/-- A loop that collects does so as long as `temp_val` has room. -/
theorem collectWhile (h : OnText lx) (hrem : remaining lx = w ++ rest)
    (hw : ∀ c ∈ w, p c = true ∧ c ≠ 0 ∧ c ≠ eofChar) (hrest : p (rest.headD 0) = false) (t : List Byte)
    (hroom : t.length + w.length ≤ 128) :
    ∃ lx', OnText lx' ∧ remaining lx' = rest ∧ lx'.prevChar = w.getLastD lx.prevChar ∧
      ∀ fuel, w.length ≤ fuel → collectWhile p fuel (lx, t) = .ok (lx', t ++ w) := by
  induction w generalizing lx t with
  | nil =>
    refine ⟨lx, h, hrem, rfl, fun fuel _ => ?_⟩
    rw [List.append_nil]
    refine Loop.run_exit ?_
    rw [h.current_eq hrem]
    exact hrest
  | cons c w ih =>
    obtain ⟨hp, hzero, heof⟩ := hw c (by simp)
    have hcur : lx.currentChar = c := h.current_eq hrem
    obtain ⟨h₁, hrem₁, hprev⟩ := h.take hrem hzero heof
    rw [List.length_cons] at hroom
    obtain ⟨lx', h', hrem', hprev', hrun⟩ := ih h₁ hrem₁ (fun d hd => hw d (by simp [hd])) (t ++ [c])
      (by rw [List.length_append, List.length_singleton]; omega)
    refine ⟨lx', h', hrem', ?_, ?_⟩
    · rw [hprev', hprev]
      cases w <;> rfl
    · rintro fuel hfuel
      obtain ⟨fuel, rfl⟩ : ∃ n, fuel = n + 1 := ⟨fuel - 1, by simp at hfuel; omega⟩
      rw [collectWhile_turn ((congrArg p hcur).trans hp) (by omega), hcur]
      have hrest := hrun fuel (by simpa using hfuel)
      rwa [List.append_assoc] at hrest

end OnText

/-! ## Tokens -/

/-- The lexer stands before the characters `cs`, and not behind a quote. -/
structure Reads (cs : List Byte) (lx : TasmLexer) : Prop where
  onText : OnText lx
  rest : remaining lx = cs
  string : inString lx = false
  char : inChar lx = false

/-- The calls from `lx` on return the tokens `ts` and leave the lexer in `lx'`. -/
inductive LexCalls : TasmLexer → List TasmToken → TasmLexer → Prop where
  | nil (lx : TasmLexer) : LexCalls lx [] lx
  | cons {lx lx₁ lx' : TasmLexer} {t : TasmToken} {ts : List TasmToken} (call : LexCall lx t lx₁) (ne : t.type ≠ .eof)
      (rest : LexCalls lx₁ ts lx') : LexCalls lx (t :: ts) lx'

namespace LexCalls

variable {lx lx₁ lx' : TasmLexer} {ts us : List TasmToken}

theorem append (h : LexCalls lx ts lx₁) (h' : LexCalls lx₁ us lx') : LexCalls lx (ts ++ us) lx' := by
  induction h with
  | nil => exact h'
  | cons call ne _ ih => exact .cons call ne (ih h')

theorem tokens (h : LexCalls lx ts lx') (h' : LexTokens lx' us) : LexTokens lx (ts ++ us) := by
  induction h with
  | nil => exact h'
  | cons call ne _ ih => exact .cons call ne (ih h')

theorem reach (h : LexCalls lx ts lx') : LexReach lx lx' := by
  induction h with
  | nil => exact .refl
  | cons call _ _ ih => exact ih.head ⟨_, call⟩

theorem ne_eof (h : LexCalls lx ts lx') : ∀ t ∈ ts, t.type ≠ .eof := by
  induction h with
  | nil => simp
  | cons call ne _ ih => simpa [ne] using ih

end LexCalls

/-- The characters `cs` are read as the tokens `ts`, up to the characters `us`. -/
def Lexes (cs : List Byte) (ts : List TasmToken) (us : List Byte) : Prop :=
  ∀ lx, Reads cs lx → ∃ lx', Reads us lx' ∧ LexCalls lx ts lx'

/-- The end of a line or of the text. -/
def EndsRow (cs : List Byte) : Prop := cs.headD 0 = chr '\n' ∨ cs.headD 0 = eofChar

theorem Lexes.refl (cs : List Byte) : Lexes cs [] cs := fun lx hlx => ⟨lx, hlx, .nil lx⟩

theorem Lexes.trans {cs us vs : List Byte} {ts ts' : List TasmToken} (h : Lexes cs ts us) (h' : Lexes us ts' vs) :
    Lexes cs (ts ++ ts') vs := by
  intro lx hlx
  obtain ⟨lx₁, hlx₁, hcalls⟩ := h lx hlx
  obtain ⟨lx₂, hlx₂, hcalls'⟩ := h' lx₁ hlx₁
  exact ⟨lx₂, hlx₂, hcalls.append hcalls'⟩

section Rules

variable {ws w us : List Byte} {c : Byte} {t : TasmToken} {lx : TasmLexer}

theorem Reads.of_prev (h : OnText lx) (hrem : remaining lx = us) (hstring : lx.prevChar ≠ chr '"')
    (hchar : lx.prevChar ≠ chr '\'') : Reads us lx where
  onText := h
  rest := hrem
  string := by simp [inString, hstring]
  char := by simp [inChar, hchar]

theorem Reads.of_ends (h : OnText lx) (hrem : remaining lx = us) (hends : EndsRow us) : Reads us lx := by
  have hcur := h.current_eq hrem
  refine ⟨h, hrem, ?_, ?_⟩
  · unfold inString
    rcases hends with he | he <;> rw [hcur, he] <;> simp
  · unfold inChar
    rcases hends with he | he <;> rw [hcur, he] <;> simp

/-- A call skips the blanks and collects a token. -/
theorem Reads.call (hlx : Reads (ws ++ us) lx) (hws : ∀ c ∈ ws, isBlank c = true) (hhead : isBlank (us.headD 0) = false)
    {P : TasmLexer → Prop}
    (hcollect : ∀ lx, OnText lx → remaining lx = us → ∃ lx', P lx' ∧ ∃ fuel, collectToken fuel lx = .ok (t, lx')) :
    ∃ lx', P lx' ∧ LexCall lx t lx' := by
  obtain ⟨h, hrem, hstring, hchar⟩ := hlx
  have hblank : ∀ c, isBlank c = true → c ≠ 0 ∧ c ≠ eofChar := by decide
  obtain ⟨lx₁, h₁, hrem₁, -, hskip⟩ := h.advanceWhile (p := isBlank) hrem
    (fun c hc => ⟨hws c hc, hblank c (hws c hc)⟩) hhead
  obtain ⟨lx', hlx', fuel, hfuel⟩ := hcollect lx₁ h₁ hrem₁
  obtain ⟨r, hr, rfl⟩ := (Extends.collectToken (Nat.le_max_left fuel ws.length) lx₁).result _ hfuel trivial
  refine ⟨lx', hlx', max fuel ws.length, ?_⟩
  unfold tasmLexerGetNextToken tasmLexerSkipWhitespace
  rw [hstring, hchar, if_neg (by decide), if_neg (by decide), Except.bind_of_ok (hskip _ (Nat.le_max_right _ _))]
  exact hr

theorem lexes_of_collect (hws : ∀ c ∈ ws, isBlank c = true) (hhead : isBlank (us.headD 0) = false)
    (ht : t.type ≠ .eof) {vs : List Byte}
    (hcollect : ∀ lx, OnText lx → remaining lx = us → ∃ lx', Reads vs lx' ∧ ∃ fuel, collectToken fuel lx = .ok (t, lx')) :
    Lexes (ws ++ us) [t] vs := by
  rintro lx hlx
  obtain ⟨lx', hlx', call⟩ := hlx.call hws hhead hcollect
  exact ⟨lx', hlx', .cons call ht (.nil lx')⟩

theorem isIdChar_plain : ∀ c, isIdChar c = true → c ≠ 0 ∧ c ≠ eofChar ∧ c ≠ chr '"' ∧ c ≠ chr '\'' := by decide

theorem getLastD_mem {α : Type} {x : α} {xs : List α} (hne : xs ≠ []) : xs.getLastD x ∈ xs := by
  rw [List.getLastD_eq_getLast?, List.getLast?_eq_some_getLast hne, Option.getD_some]
  exact List.getLast_mem hne

/-- A word. -/
theorem lexes_word (hws : ∀ c ∈ ws, isBlank c = true) (hstart : (isAlpha (w.headD 0) || w.headD 0 == chr '_') = true)
    (hw : ∀ c ∈ w, isIdChar c = true) (hshort : w.length ≤ 127) (hus : isIdChar (us.headD 0) = false) :
    Lexes (ws ++ (w ++ us)) [⟨wordType w, some w⟩] us := by
  obtain ⟨c, w', rfl⟩ : ∃ c w', w = c :: w' := by
    cases w with
    | nil => cases hstart
    | cons c w' => exact ⟨c, w', rfl⟩
  have hblank : ∀ c, isIdChar c = true → isBlank c = false := by decide
  have hhead : isBlank ((c :: w' ++ us).headD 0) = false := hblank c (hw c (by simp))
  refine lexes_of_collect hws hhead (wordType_ne_eof _) fun lx h hrem => ?_
  have hcur : lx.currentChar = c := h.current_eq hrem
  have hstart : (isAlpha c || c == chr '_') = true := hstart
  obtain ⟨lx', h', hrem', hprev, hrun⟩ := h.collectWhile (p := isIdChar) hrem
    (fun d hd => ⟨hw d hd, (isIdChar_plain d (hw d hd)).1, (isIdChar_plain d (hw d hd)).2.1⟩) hus []
    (by rw [List.length_nil]; omega)
  have hlast : lx'.prevChar ∈ c :: w' := hprev ▸ getLastD_mem (by simp)
  obtain ⟨-, -, hstring, hchar⟩ := isIdChar_plain _ (hw _ hlast)
  refine ⟨lx', .of_prev h' hrem' hstring hchar, (c :: w').length, ?_⟩
  unfold collectToken tasmLexerCollectId
  rw [hcur, if_pos hstart, Except.bind_of_ok (hrun _ (Nat.le_refl _))]
  dsimp only
  rw [Except.bind_of_ok (tempEnd_ok.mpr ⟨by rw [List.nil_append]; omega, rfl⟩)]
  rfl

/-- What can stand behind a number. -/
def NumberEnds (cs : List Byte) : Prop := isIdChar (cs.headD 0) = false ∧ cs.headD 0 ≠ chr '.'

theorem EndsRow.number (h : EndsRow us) : NumberEnds us := by
  rcases h with he | he <;> unfold NumberEnds <;> rw [he] <;> decide

theorem isDigit_plain : ∀ c, isDigit c = true → isBlank c = false ∧ (isAlpha c || c == chr '_') = false ∧ isIdChar c = true ∧
    c ≠ chr 'b' ∧ c ≠ chr 'B' ∧ c ≠ chr 'x' ∧ c ≠ chr 'X' := by decide

/-- A number in decimal. -/
theorem lexes_number (hws : ∀ c ∈ ws, isBlank c = true) (hne : w ≠ []) (hw : ∀ c ∈ w, isDigit c = true)
    (hshort : w.length ≤ 127) (hends : NumberEnds us) : Lexes (ws ++ (w ++ us)) [⟨.decimalNumber, some w⟩] us := by
  obtain ⟨c, w', rfl⟩ := List.exists_cons_of_ne_nil hne
  obtain ⟨hblank, hstart, -⟩ := isDigit_plain c (hw c (by simp))
  have hplain (d : Byte) (hd : d ∈ c :: w') := isIdChar_plain d (isDigit_plain d (hw d hd)).2.2.1
  have hhead : isBlank ((c :: w' ++ us).headD 0) = false := hblank
  refine lexes_of_collect hws hhead (by simp) fun lx h hrem => ?_
  have hus : isDigit (us.headD 0) = false := by
    cases hd : isDigit (us.headD 0) with
    | false => rfl
    | true => cases (isDigit_plain _ hd).2.2.1.symm.trans hends.1
  obtain ⟨lx', h', hrem', hprev, hrun⟩ := h.collectWhile (p := isDigit) hrem
    (fun d hd => ⟨hw d hd, (hplain d hd).1, (hplain d hd).2.1⟩) hus [] (by rw [List.length_nil]; omega)
  have hcur : lx.currentChar = c := h.current_eq hrem
  -- behind the first digit is another one, or the end of the number
  have hnext : isbinprefix lx.currentChar lx.nextChar = false ∧ ishexprefix lx.currentChar lx.nextChar = false := by
    rw [h.next_eq hrem, isbinprefix, ishexprefix]
    cases w' with
    | nil =>
      have hget : ([c] ++ us).getD 1 0 = us.headD 0 := by cases us <;> rfl
      have hmark : ∀ d, isIdChar d = false → d ≠ chr 'b' ∧ d ≠ chr 'B' ∧ d ≠ chr 'x' ∧ d ≠ chr 'X' := by decide
      obtain ⟨hb, hB, hx, hX⟩ := hmark _ hends.1
      rw [hget]
      generalize us.headD 0 = d at hb hB hx hX
      simp [hb, hB, hx, hX]
    | cons d w' =>
      obtain ⟨-, -, -, hb, hB, hx, hX⟩ := isDigit_plain d (hw d (by simp))
      simp [hb, hB, hx, hX]
  obtain ⟨-, -, hstring, hchar⟩ := hplain lx'.prevChar (hprev ▸ getLastD_mem (by simp))
  refine ⟨lx', .of_prev h' hrem' hstring hchar, (c :: w').length, ?_⟩
  have hdot : lx'.currentChar ≠ chr '.' := by
    rw [h'.current_eq hrem']
    exact hends.2
  unfold collectToken tasmLexerCollectNumber
  rw [hnext.1, hnext.2, hcur, hstart, hw c (by simp), if_neg (by decide), if_neg (by decide), if_neg (by decide), if_pos rfl,
    Except.bind_of_ok (hrun _ (Nat.le_refl _))]
  dsimp only
  rw [if_neg hdot, Except.bind_of_ok (tempEnd_ok.mpr ⟨by rw [List.nil_append]; omega, rfl⟩)]
  rfl

/-- A number with the prefix `c d`. -/
theorem lexes_prefixed {c d : Byte} {p : Byte → Bool} {type : TokenType} (hws : ∀ c ∈ ws, isBlank c = true)
    (hc : isDigit c = true) (hd : isIdChar d = true) (hp : ∀ c, p c = true → isIdChar c = true) (ht : type ≠ .eof)
    (hcollect : ∀ fuel lx, lx.currentChar = c → lx.nextChar = d → collectToken fuel lx = collectPrefixed p type fuel lx)
    (hw : ∀ c ∈ w, p c = true) (hshort : w.length ≤ 127) (hends : NumberEnds us) :
    Lexes (ws ++ (c :: d :: w ++ us)) [⟨type, some w⟩] us := by
  obtain ⟨hblank, -, hid, -⟩ := isDigit_plain c hc
  have hhead : isBlank ((c :: d :: w ++ us).headD 0) = false := hblank
  refine lexes_of_collect hws hhead ht fun lx h hrem => ?_
  obtain ⟨h₁, hrem₁, -⟩ := h.take hrem (isIdChar_plain c hid).1 (isIdChar_plain c hid).2.1
  obtain ⟨h₂, hrem₂, hprev₂⟩ := h₁.take hrem₁ (isIdChar_plain d hd).1 (isIdChar_plain d hd).2.1
  have hus : p (us.headD 0) = false := by
    cases hpu : p (us.headD 0) with
    | false => rfl
    | true => cases (hp _ hpu).symm.trans hends.1
  have hplain (e : Byte) (he : e ∈ w) := isIdChar_plain e (hp e (hw e he))
  obtain ⟨lx', h', hrem', hprev, hrun⟩ := h₂.collectWhile (p := p) hrem₂
    (fun e he => ⟨hw e he, (hplain e he).1, (hplain e he).2.1⟩) hus [] (by rw [List.length_nil]; omega)
  have hlast : lx'.prevChar ≠ chr '"' ∧ lx'.prevChar ≠ chr '\'' := by
    rw [hprev, hprev₂]
    cases w with
    | nil => exact (isIdChar_plain d hd).2.2
    | cons e w => exact (hplain _ (getLastD_mem (by simp))).2.2
  refine ⟨lx', .of_prev h' hrem' hlast.1 hlast.2, w.length, ?_⟩
  rw [hcollect _ _ (h.current_eq hrem) (h.next_eq hrem)]
  unfold collectPrefixed
  rw [Except.bind_of_ok (hrun _ (Nat.le_refl _))]
  dsimp only
  rw [Except.bind_of_ok (tempEnd_ok.mpr ⟨by rw [List.nil_append]; omega, rfl⟩)]
  rfl

/-- The characters that make a token of their own, quotes apart. -/
def oneChars : List (Byte × TasmToken) :=
  [(chr '\n', ⟨.endline, some (cstr "endl")⟩), (chr ':', ⟨.colon, some (cstr ":")⟩), (chr '@', ⟨.atSign, some (cstr "@")⟩),
    (chr '-', ⟨.minus, some (cstr "-")⟩)]

theorem oneChars_plain : ∀ o ∈ oneChars, isBlank o.1 = false ∧ o.2.type ≠ .eof ∧ o.1 ≠ 0 ∧ o.1 ≠ eofChar ∧
    o.1 ≠ chr '"' ∧ o.1 ≠ chr '\'' := by decide

/-- One of them. -/
theorem lexes_one (hws : ∀ c ∈ ws, isBlank c = true) (ho : (c, t) ∈ oneChars) : Lexes (ws ++ c :: us) [t] us := by
  obtain ⟨hblank, ht, hzero, heof, hstring, hchar⟩ := oneChars_plain _ ho
  have hhead : isBlank ((c :: us).headD 0) = false := hblank
  refine lexes_of_collect hws hhead ht fun lx h hrem => ?_
  obtain ⟨h', hrem', hprev⟩ := h.take hrem hzero heof
  have hcur : lx.currentChar = c := h.current_eq hrem
  refine ⟨_, .of_prev h' hrem' (hprev ▸ hstring) (hprev ▸ hchar), 0, ?_⟩
  unfold collectToken lexerCollectOneChars isbinprefix ishexprefix
  rw [hcur]
  simp only [oneChars, List.mem_cons, Prod.mk.injEq, List.not_mem_nil, or_false] at ho
  rcases ho with ⟨rfl, rfl⟩ | ⟨rfl, rfl⟩ | ⟨rfl, rfl⟩ | ⟨rfl, rfl⟩ <;> rfl

/-- A comment, up to the end of the row. -/
theorem lexes_comment (hws : ∀ c ∈ ws, isBlank c = true) (hw : ∀ c ∈ w, c ≠ chr '\n' ∧ c ≠ 0 ∧ c ≠ eofChar)
    (hends : EndsRow us) : Lexes (ws ++ (chr ';' :: w ++ us)) [⟨.comment, some (cstr ";")⟩] us := by
  have hhead : isBlank ((chr ';' :: w ++ us).headD 0) = false := rfl
  refine lexes_of_collect hws hhead (by simp) fun lx h hrem => ?_
  have hcur : lx.currentChar = chr ';' := h.current_eq hrem
  obtain ⟨lx', h', hrem', -, hrun⟩ := h.advanceWhile (p := fun c => c != chr '\n' && c != eofChar) hrem
    (by
      intro d hd
      rcases List.mem_cons.mp hd with rfl | hd
      · decide
      · obtain ⟨hn, hzero, heof⟩ := hw d hd
        exact ⟨by simp [hn, heof], hzero, heof⟩)
    (by rcases hends with he | he <;> rw [he] <;> decide)
  refine ⟨lx', .of_ends h' hrem' hends, (chr ';' :: w).length, ?_⟩
  unfold collectToken lexerCollectOneChars isbinprefix ishexprefix
  rw [hcur]
  exact Except.bind_of_ok (hrun _ (Nat.le_refl _))

/-- The end of the text, behind blanks. -/
theorem Reads.tokens_nil (hws : ∀ c ∈ ws, isBlank c = true) (h : Reads (ws ++ [eofChar, 0]) lx) : LexTokens lx [] := by
  obtain ⟨hon, hrem, hstring, hchar⟩ := h
  have hblank : ∀ c, isBlank c = true → c ≠ 0 ∧ c ≠ eofChar := by decide
  obtain ⟨lx₁, h₁, hrem₁, -, hskip⟩ := hon.advanceWhile (p := isBlank) hrem
    (fun c hc => ⟨hws c hc, hblank c (hws c hc)⟩) (by decide)
  have hcur : lx₁.currentChar = eofChar := h₁.current_eq hrem₁
  refine @LexTokens.eof _ lx₁ ⟨ws.length, ?_⟩
  unfold tasmLexerGetNextToken tasmLexerSkipWhitespace
  rw [hstring, hchar, if_neg (by decide), if_neg (by decide), Except.bind_of_ok (hskip _ (Nat.le_refl _))]
  unfold collectToken lexerCollectOneChars isbinprefix ishexprefix
  rw [hcur, advance_eof hcur]
  rfl

end Rules

end TileVm
