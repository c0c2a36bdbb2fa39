/-
String literals. The scan of a literal undoes the escape sequences of any spelling, and the parser and
the translator hand its bytes on to the constants. A literal that starts with an apostrophe is not
scanned at all.
-/
import TileVm.Tasm.Bases
import TileVm.Tasm.PrintParse

namespace TileVm

open Grammar

/-! ## Spellings -/

/-- A byte in a literal: newline, backslash and quote are written as escape sequences, tab and carriage return can be. -/
inductive Escapes : Byte → CStr → Prop where
  | plain {c : Byte} (hn : c ≠ chr '\n') (hb : c ≠ chr '\\') (hq : c ≠ chr '"') : Escapes c [c]
  | newline : Escapes 10 (cstr "\\n")
  | backslash : Escapes (chr '\\') (cstr "\\\\")
  | quote : Escapes (chr '"') (cstr "\\\"")
  | tab : Escapes 9 (cstr "\\t")
  | carriageReturn : Escapes 13 (cstr "\\r")

/-- The spellings of a string. -/
inductive Spelled : CStr → CStr → Prop where
  | nil : Spelled [] []
  | cons {c : Byte} {s w v : CStr} (hc : Escapes c w) (hs : Spelled s v) : Spelled (c :: s) (w ++ v)

/-- A string that a token has room for, and one of its spellings. -/
structure StringLiteral (s spelling : CStr) : Prop where
  ne : s ≠ []
  short : s.length ≤ 127
  chars : ∀ c ∈ s, c ≠ 0 ∧ c ≠ eofChar
  spelled : Spelled s spelling

/-- The line with its newline. -/
def stringLine (spelling : CStr) : CStr := cstr "@data \"" ++ (spelling ++ cstr "\"\n")

section Spelling

variable {c : Byte} {s w spelling : CStr}

/-- The characters of a spelling stay on the line. -/
theorem Escapes.chars (h : Escapes c w) (hzero : c ≠ 0) (heof : c ≠ eofChar) :
    ∀ d ∈ w, d ≠ 0 ∧ d ≠ eofChar ∧ d ≠ chr '\n' := by
  cases h with
  | plain hn => simpa using ⟨hzero, heof, hn⟩
  | newline | backslash | quote | tab | carriageReturn => decide

theorem Spelled.chars (h : Spelled s spelling) (hs : ∀ c ∈ s, c ≠ 0 ∧ c ≠ eofChar) :
    ∀ d ∈ spelling, d ≠ 0 ∧ d ≠ eofChar ∧ d ≠ chr '\n' := by
  induction h with
  | nil => simp
  | cons hc _ ih =>
    intro d hd
    rcases List.mem_append.mp hd with hd | hd
    · exact hc.chars (hs _ (by simp)).1 (hs _ (by simp)).2 d hd
    · exact ih (fun e he => hs e (by simp [he])) d hd

/-- A spelling starts with no quote, and with an apostrophe if and only if the string does. -/
theorem Escapes.head (h : Escapes c w) : ∃ d rest, w = d :: rest ∧ d ≠ chr '"' ∧ (d = chr '\'' ↔ c = chr '\'') := by
  cases h with
  | plain _ _ hq => exact ⟨c, [], rfl, hq, Iff.rfl⟩
  | newline | backslash | quote | tab | carriageReturn => exact ⟨_, _, rfl, by decide, by decide⟩

theorem Spelled.head (h : Spelled s spelling) (hne : s ≠ []) : ∃ d rest, spelling = d :: rest ∧ d ≠ chr '"' ∧
    (d = chr '\'' ↔ s.headD 0 = chr '\'') := by
  cases h with
  | nil => exact absurd rfl hne
  | cons hc hs =>
    obtain ⟨d, rest, rfl, hq, hsame⟩ := hc.head
    exact ⟨d, _, rfl, hq, hsame⟩

theorem Spelled.length_le (h : Spelled s spelling) : s.length ≤ spelling.length := by
  induction h with
  | nil => simp
  | cons hc _ ih =>
    obtain ⟨d, rest, rfl, -⟩ := hc.head
    simp only [List.length_cons, List.length_append]
    omega

end Spelling

/-! ## The peek counter -/

/-- A peek counter that was not reset is on the last line. -/
def Fresh (lx : TasmLexer) : Prop :=
  lx.peek = 0 ∨ ∀ i, lx.cursor ≤ i → i + 1 < lx.sourceCodeSize → lx.charAt i ≠ chr '\n'

section Counter

variable {lx lx' : TasmLexer} {t : TasmToken}

theorem Fresh.advance (hf : Fresh lx) : Fresh (tasmLexerAdvance lx) := by
  have hmove : (tasmLexerAdvance lx).peek = lx.peek ∧ (tasmLexerAdvance lx).sourceCode = lx.sourceCode ∧
      (tasmLexerAdvance lx).sourceCodeSize = lx.sourceCodeSize ∧ lx.cursor ≤ (tasmLexerAdvance lx).cursor := by
    unfold tasmLexerAdvance
    dsimp only
    split_ifs <;> simp
  obtain ⟨hpeek, hsource, hsize, hcursor⟩ := hmove
  unfold Fresh TasmLexer.charAt at hf ⊢
  rw [hpeek, hsource, hsize]
  exact hf.imp_right fun hline i hi => hline i (Nat.le_trans hcursor hi)

theorem charAt_lineLength {k : Nat} (hk : k < lineLength (remaining lx)) : lx.charAt (lx.cursor + k) ≠ chr '\n' := by
  have hlen : k < (remaining lx).length := Nat.lt_of_lt_of_le hk List.findIdx_le_length
  have hnot := List.not_of_lt_findIdx hk
  intro hc
  rw [LexInv.charAt_add, List.getD_eq_getElem?_getD, List.getElem?_eq_getElem hlen, Option.getD_some] at hc
  rw [hc] at hnot
  exact absurd hnot (by decide)

/-- After the scan for the end of a line the counter is reset, unless the text ends with the line. -/
theorem peekReset_fresh (h : OnText lx) : ∃ peek,
    tasmLexerPeekReset { lx with peek := lineLength (remaining lx) + 1 } = { lx with peek } ∧
      OnText { lx with peek } ∧ Fresh { lx with peek } := by
  obtain ⟨peek, hreset, hstart⟩ := peekReset_onText h (lineLength (remaining lx) + 1)
  refine ⟨peek, hreset, hstart, ?_⟩
  unfold tasmLexerPeekReset tasmLexerPeekUpgraded at hreset
  by_cases hpast : lx.sourceCodeSize ≤ lineLength (remaining lx) + 1 + lx.cursor
  · right
    rintro i hcursor hsize
    obtain ⟨k, rfl⟩ := Nat.exists_eq_add_of_le hcursor
    have hk : lx.cursor + k + 1 < lx.sourceCodeSize := hsize
    exact charAt_lineLength (show k < lineLength (remaining lx) by omega)
  · left
    rw [if_neg hpast] at hreset
    exact (congrArg TasmLexer.peek hreset).symm

theorem LexCall.fresh (hc : LexCall lx t lx') (h : OnText lx) (hf : Fresh lx) : OnText lx' ∧ Fresh lx' := by
  obtain ⟨h', -⟩ := hc.reports h
  refine ⟨h', ?_⟩
  obtain ⟨fuel, hr⟩ := hc
  cases hstr : inString lx with
  | false => exact (getNextToken_advances (P := Fresh) (fun l hl => hl.advance) hf hstr).of_ok hr
  | true =>
    unfold tasmLexerGetNextToken tasmLexerCollectStr at hr
    rw [if_pos hstr] at hr
    obtain ⟨⟨l, lim⟩, hline, hr⟩ := Except.bind_ok hr
    obtain ⟨hscan, -⟩ := lineEndLoop_onText h hline
    cases hscan
    obtain ⟨peek, hreset, -, hfresh⟩ := peekReset_fresh h
    dsimp only at hr
    rw [hreset] at hr
    obtain ⟨⟨l, s⟩, hloop, hr⟩ := Except.bind_ok hr
    -- the turns of the scan only advance and report
    have hbody (s : TasmLexer × List Byte) (hs : Fresh s.1) : (strBody s).Post (fun _ => True) fun s' => Fresh s'.1 := by
      unfold strBody
      dsimp only
      refine .ite (fun _ => ?_) fun _ => ?_
      · split
        · exact .map (.intro (fun _ _ => trivial) fun _ _ => hs.advance.advance)
        · exact .ok (Fresh.advance (show Fresh ((tasmLexerAdvance s.1).report _) from hs.advance))
      · exact .map (.intro (fun _ _ => trivial) fun _ _ => hs.advance)
    have hscanned := (Loop.run_post trivial (fun s : TasmLexer × List Byte => Fresh s.1) (fun s hs _ => hbody s hs) _ _
      hfresh).of_ok hloop
    obtain ⟨val, -, hr⟩ := Except.bind_ok hr
    cases hr
    dsimp only
    split_ifs <;> exact hscanned.1

theorem LexReach.fresh {src : List Byte} (hr : LexReach (tasmLexerInit src) lx) : Fresh lx := by
  suffices hall : OnText lx ∧ Fresh lx from hall.2
  induction hr with
  | refl => exact ⟨.init src, .inl rfl⟩
  | tail _ hstep ih =>
    obtain ⟨t, hc⟩ := hstep
    exact hc.fresh ih.1 ih.2

/-- Characters with something behind them are in front of the text's end. -/
theorem OnText.size_gt {w us : CStr} (h : OnText lx) (hrem : remaining lx = w ++ us) (hw : ∀ c ∈ w, c ≠ 0)
    (hus : us.headD 0 ≠ 0) : lx.cursor + w.length < lx.sourceCodeSize := by
  have hcursor := h.cursor
  by_contra hge
  obtain ⟨k, hk⟩ := Nat.exists_eq_add_of_le hcursor
  have hzero : (w ++ us).getD k 0 = 0 := by
    rw [← hrem, ← LexInv.charAt_add, ← hk, TasmLexer.charAt, h.size]
    exact strlen_getD lx.sourceCode
  rcases Nat.lt_or_eq_of_le (show k ≤ w.length by omega) with hlt | rfl
  · rw [List.getD_eq_getElem?_getD, List.getElem?_append_left hlt, List.getElem?_eq_getElem hlt, Option.getD_some] at hzero
    exact hw _ (List.getElem_mem hlt) hzero
  · rw [List.getD_eq_getElem?_getD, List.getElem?_append_right (Nat.le_refl _), Nat.sub_self, ← List.head?_eq_getElem?,
      ← List.headD_eq_head?_getD] at hzero
    exact hus hzero

end Counter

/-! ## The scan -/

section Scan

variable {lx : TasmLexer} {c : Byte} {s w t spelling rest us : CStr} {lim : Nat}

/-- One turn takes the spelling of one byte. -/
theorem strBody_escapes (h : OnText lx) (hrem : remaining lx = w ++ rest) (hc : Escapes c w) (hzero : c ≠ 0)
    (heof : c ≠ eofChar) (hroom : t.length < 128) : ∃ lx', OnText lx' ∧ remaining lx' = rest ∧
      lx'.reports = lx.reports ∧ strBody (lx, t) = .ok (lx', t ++ [c]) := by
  have hput : tempPut t c = .ok (t ++ [c]) := tempPut_ok.mpr ⟨hroom, rfl⟩
  -- an escape sequence is a backslash and a character that stands for the byte
  have hescape {d : Byte} (hrem : remaining lx = chr '\\' :: d :: rest) (hd : unescape d = some c) (hdzero : d ≠ 0)
      (hdeof : d ≠ eofChar) : ∃ lx', OnText lx' ∧ remaining lx' = rest ∧ lx'.reports = lx.reports ∧
        strBody (lx, t) = .ok (lx', t ++ [c]) := by
    obtain ⟨h₁, hrem₁, -⟩ := h.take hrem (by decide) (by decide)
    obtain ⟨h₂, hrem₂, -⟩ := h₁.take hrem₁ hdzero hdeof
    refine ⟨_, h₂, hrem₂, h₁.advance.2.trans h.advance.2, ?_⟩
    have hcur : lx.currentChar = chr '\\' := h.current_eq hrem
    have hcur₁ : (tasmLexerAdvance lx).currentChar = d := h₁.current_eq hrem₁
    unfold strBody
    simp only [hcur, if_true, hcur₁, hd, hput]
    rfl
  cases hc with
  | plain hn hb hq =>
    obtain ⟨h₁, hrem₁, -⟩ := h.take hrem hzero heof
    refine ⟨_, h₁, hrem₁, h.advance.2, ?_⟩
    have hcur : lx.currentChar = c := h.current_eq hrem
    unfold strBody
    simp only [hcur, if_neg hb, hput]
    rfl
  | newline => exact hescape hrem (by decide) (by decide) (by decide)
  | backslash => exact hescape hrem (by decide) (by decide) (by decide)
  | quote => exact hescape hrem (by decide) (by decide) (by decide)
  | tab => exact hescape hrem (by decide) (by decide) (by decide)
  | carriageReturn => exact hescape hrem (by decide) (by decide) (by decide)

/-- The scan undoes the escapes up to the closing quote, if the buffer and the limit have room. -/
theorem strLoop_spelled (hs : Spelled s spelling) (hchars : ∀ c ∈ s, c ≠ 0 ∧ c ≠ eofChar) (h : OnText lx)
    (hrem : remaining lx = spelling ++ chr '"' :: rest) (hroom : t.length + s.length ≤ 127)
    (hlim : t.length + s.length ≤ lim) : ∃ lx', OnText lx' ∧ remaining lx' = chr '"' :: rest ∧
      lx'.reports = lx.reports ∧ ∀ fuel, s.length ≤ fuel →
        Loop.run (fun s : TasmLexer × List Byte => s.1.currentChar != chr '"' && !decide (lim < s.2.length)) strBody fuel
          (lx, t) = .ok (lx', t ++ s) := by
  induction hs generalizing lx t with
  | nil =>
    refine ⟨lx, h, hrem, rfl, fun fuel _ => ?_⟩
    have hcur : lx.currentChar = chr '"' := h.current_eq hrem
    rw [List.append_nil]
    exact Loop.run_exit (by simp [hcur])
  | cons hc hs ih =>
    rename_i c s w v
    rw [List.length_cons] at hroom hlim
    rw [List.append_assoc] at hrem
    obtain ⟨hzero, heof⟩ := hchars c (by simp)
    obtain ⟨lx₁, h₁, hrem₁, hreports₁, hturn⟩ := strBody_escapes h hrem hc hzero heof (t := t) (by omega)
    obtain ⟨lx', h', hrem', hreports, hrun⟩ := ih (fun d hd => hchars d (by simp [hd])) h₁ hrem₁ (t := t ++ [c])
      (by rw [List.length_append, List.length_singleton]; omega) (by rw [List.length_append, List.length_singleton]; omega)
    refine ⟨lx', h', hrem', hreports.trans hreports₁, ?_⟩
    rintro fuel hfuel
    obtain ⟨fuel, rfl⟩ : ∃ n, fuel = n + 1 := ⟨fuel - 1, by simp at hfuel; omega⟩
    have hopen : lx.currentChar ≠ chr '"' := by
      obtain ⟨d, r, rfl, hq, -⟩ := hc.head
      rw [h.current_eq hrem]
      exact hq
    have hlimit : t.length ≤ lim := by omega
    have hrest := hrun fuel (by simpa using hfuel)
    rw [List.append_assoc] at hrest
    refine Eq.trans (Loop.run_turn ?_ hturn) hrest
    simpa [hopen] using hlimit

theorem lineLength_line (us : CStr) (hw : ∀ c ∈ w, c ≠ eofChar ∧ c ≠ chr '\n') : lineLength (w ++ chr '\n' :: us) = w.length := by
  have hinside : ¬ w.findIdx (fun c => !(c != chr '\n' && c != eofChar)) < w.length := by
    rw [List.findIdx_lt_length]
    rintro ⟨c, hc, hstop⟩
    simp [hw c hc] at hstop
  have hnewline : (chr '\n' :: us).findIdx (fun c => !(c != chr '\n' && c != eofChar)) = 0 := by
    simp [List.findIdx_cons]
  unfold lineLength
  rw [List.findIdx_append, if_neg hinside, hnewline, Nat.zero_add]

/-- The end of a literal's line is found, and the counter has been reset before. -/
theorem literal_line (h : OnText lx) (hfresh : Fresh lx) (hrem : remaining lx = spelling ++ chr '"' :: chr '\n' :: us)
    (hus : us.headD 0 ≠ 0) (hplain : ∀ d ∈ spelling, d ≠ 0 ∧ d ≠ eofChar ∧ d ≠ chr '\n') :
    lx.peek = 0 ∧ lineLength (remaining lx) = spelling.length + 1 ∧
      lx.cursor + (spelling.length + 2) < lx.sourceCodeSize := by
  have hline : lineLength (remaining lx) = spelling.length + 1 := by
    have hends : ∀ c ∈ spelling ++ [chr '"'], c ≠ eofChar ∧ c ≠ chr '\n' := by
      rintro c hc
      rcases List.mem_append.mp hc with hc | hc
      · exact (hplain c hc).2
      · rw [List.mem_singleton.mp hc]
        decide
    simpa [hrem] using lineLength_line us hends
  have hsize : lx.cursor + (spelling.length + 2) < lx.sourceCodeSize := by
    have hends : ∀ c ∈ [chr '"', chr '\n'], c ≠ 0 := by decide
    have hbehind := h.size_gt (w := spelling ++ [chr '"', chr '\n']) (by simpa using hrem) (by
      rintro c hc
      exact (List.mem_append.mp hc).elim (fun hc => (hplain c hc).1) (hends c)) hus
    simpa using hbehind
  refine ⟨?_, hline, hsize⟩
  -- the newline is not the last character
  refine hfresh.resolve_right fun hlast => hlast (lx.cursor + (spelling.length + 1)) (Nat.le_add_right _ _) hsize ?_
  rw [LexInv.charAt_add, hrem, List.getD_eq_getElem?_getD, List.getElem?_append_right (by omega)]
  simp

/-- The call at a literal. -/
theorem string_call (h : OnText lx) (hfresh : Fresh lx) (hprev : lx.prevChar = chr '"')
    (hrem : remaining lx = spelling ++ chr '"' :: chr '\n' :: us) (hus : us.headD 0 ≠ 0) (hs : StringLiteral s spelling)
    (hhead : s.headD 0 ≠ chr '\'') : ∃ lx', OnText lx' ∧ remaining lx' = chr '"' :: chr '\n' :: us ∧
      lx'.reports = lx.reports ∧ LexCall lx ⟨.string, some s⟩ lx' := by
  have hplain := hs.spelled.chars hs.chars
  have hshort := hs.short
  have hstring : inString lx = true := by
    obtain ⟨d, r, rfl, hq, hsame⟩ := hs.spelled.head hs.ne
    obtain ⟨-, heof, hn⟩ := hplain d (by simp)
    have hcur : lx.currentChar = d := h.current_eq hrem
    have hapost : d ≠ chr '\'' := fun he => hhead (hsame.mp he)
    simp [inString, hprev, hcur, hq, hn, heof, hapost]
  obtain ⟨hpk, hline, hsize⟩ := literal_line h hfresh hrem hus hplain
  obtain ⟨peek, hreset, hstart⟩ := peekReset_onText h (lineLength (remaining lx) + 1)
  have hlim : ([] : CStr).length + s.length ≤ lineLength (remaining lx) := by
    have hlong := hs.spelled.length_le
    rw [List.length_nil, hline]
    omega
  obtain ⟨lx', h', hrem', hreports, hrun⟩ := strLoop_spelled hs.spelled hs.chars hstart hrem (by simpa using hshort) hlim
  have hclosed : lx'.currentChar = chr '"' := h'.current_eq hrem'
  have hend : ∀ fuel, lineLength (remaining lx) ≤ fuel → lineEndLoop fuel lx = _ :=
    fun fuel hfuel => lineEndLoop_ends hpk (by rw [hline]; omega) (by rw [hline, hrem]; simp) hfuel
  refine ⟨lx', h', hrem', hreports, max (lineLength (remaining lx)) s.length, ?_⟩
  unfold tasmLexerGetNextToken tasmLexerCollectStr
  rw [if_pos hstring, Except.bind_of_ok (hend _ (Nat.le_max_left _ _))]
  dsimp only
  rw [hreset, Except.bind_of_ok (hrun _ (Nat.le_max_right _ _))]
  dsimp only
  rw [if_neg (not_not.mpr hclosed), Except.bind_of_ok (tempEnd_ok.mpr ⟨by rw [List.nil_append]; omega, rfl⟩)]
  rfl

end Scan

/-! ## Lines -/

/-- The translator has put a constant of these bytes behind the others, and done nothing else. -/
structure Appended (bytes : List Byte) (t t' : TasmTranslator) : Prop where
  data : t'.program.constTable.data = t.program.constTable.data ++ bytes
  referances : t'.program.constTable.referances = t.program.constTable.referances ++ [t.beginningAddress]
  referanceCount : t'.program.constTable.referanceCount = t.program.constTable.referanceCount + 1
  dataSize : t'.program.constTable.dataSize = t.beginningAddress + bytes.length
  symbols : t'.symbols = t.symbols
  reports : t'.reports = t.reports

/-- The line is accepted and appends the bytes. The lexer, wherever it comes to the line in a text that does not end with it,
reads it as tokens and reports nothing; the parser, wherever it stands in front of them, returns a node and no error; and of
the node the translator appends the bytes. The text that `main` reads has its marker behind the last line. -/
def Appends (spelling bytes : CStr) : Prop :=
  ∃ tokens node,
    (∀ src lx us, LexReach (tasmLexerInit src) lx → us.headD 0 ≠ 0 → Reads (stringLine spelling ++ us) lx →
      ∃ lx', Reads us lx' ∧ LexCalls lx (tokens ++ [endlineToken]) lx' ∧ lx'.reports = lx.reports) ∧
    (∀ fuel p us, Stands p (tokens ++ endlineToken :: us) →
      ∃ p', tasmParseLine fuel p = .ok (some node, p') ∧ Stands p' (endlineToken :: us)) ∧
    ∀ t scope isCall, ∃ t', tasmTranslateLine t scope isCall node = .ok t' ∧ Appended bytes t t'

def quotaToken : TasmToken := ⟨.quota, some (cstr "\"")⟩

def apostToken : TasmToken := ⟨.apost, some (cstr "'")⟩

def dataToken : TasmToken := ⟨.data, some (cstr "data")⟩

section Tokens

variable {lx lx' l₁ l₂ : TasmLexer} {ts us : List TasmToken} {t : TasmToken} {c : Byte} {cs : CStr}

/-- Only a string call reports. -/
theorem LexCall.quiet (hc : LexCall lx t lx') (h : OnText lx) (ht : t.type ≠ .string) :
    OnText lx' ∧ lx'.reports = lx.reports := by
  obtain ⟨h', ⟨-, hsame⟩ | ⟨hopen, -⟩⟩ := hc.reports h
  · exact ⟨h', hsame⟩
  · have hstring : inString lx = true := by
      by_contra hno
      exact hopen fun hstr => absurd hstr hno
    obtain ⟨fuel, hr⟩ := hc
    unfold tasmLexerGetNextToken at hr
    rw [if_pos hstring] at hr
    obtain ⟨s, -, hr⟩ := Except.bind_ok hr
    obtain ⟨s', -, hr⟩ := Except.bind_ok hr
    obtain ⟨val, -, hr⟩ := Except.bind_ok hr
    cases hr
    exact absurd rfl ht

theorem LexCalls.quiet (hc : LexCalls lx ts lx') (h : OnText lx) (hts : ∀ t ∈ ts, t.type ≠ .string) :
    lx'.reports = lx.reports := by
  induction hc with
  | nil => rfl
  | cons call _ _ ih =>
    obtain ⟨h₁, hsame⟩ := call.quiet h (hts _ (by simp))
    exact (ih h₁ fun t ht => hts t (by simp [ht])).trans hsame

/-- Of two runs from one state, one begins with the other. -/
theorem LexCalls.comparable (h : LexCalls lx ts l₁) (h' : LexCalls lx us l₂) : ts <+: us ∨ us <+: ts := by
  induction h generalizing us with
  | nil => exact .inl us.nil_prefix
  | cons call _ _ ih =>
    cases h' with
    | nil => exact .inr (List.nil_prefix)
    | cons call' _ rest' =>
      obtain ⟨rfl, rfl⟩ := call.unique call'
      simpa using ih rest'

/-- The quote and the apostrophe. The call leaves the lexer behind it. -/
theorem quote_call {ws : CStr} (hws : ∀ c ∈ ws, isBlank c = true) (h : Reads (ws ++ c :: cs) lx)
    (hc : c = chr '"' ∧ t = quotaToken ∨ c = chr '\'' ∧ t = apostToken) :
    ∃ lx', (OnText lx' ∧ remaining lx' = cs ∧ lx'.prevChar = c) ∧ LexCall lx t lx' := by
  obtain ⟨hblank, hzero, heof⟩ : isBlank c = false ∧ c ≠ 0 ∧ c ≠ eofChar := by
    rcases hc with ⟨rfl, -⟩ | ⟨rfl, -⟩ <;> decide
  refine h.call hws hblank fun lx h hrem => ?_
  have hcur : lx.currentChar = c := h.current_eq hrem
  refine ⟨_, h.take hrem hzero heof, 0, ?_⟩
  unfold collectToken lexerCollectOneChars isbinprefix ishexprefix
  rw [hcur]
  rcases hc with ⟨rfl, rfl⟩ | ⟨rfl, rfl⟩ <;> rfl

/-- In front of a quote no literal is scanned. -/
theorem reads_quote (h : OnText lx) (hrem : remaining lx = chr '"' :: cs) : Reads (chr '"' :: cs) lx := by
  have hcur : lx.currentChar = chr '"' := h.current_eq hrem
  exact ⟨h, hrem, by simp [inString, hcur], by simp [inChar, hcur]⟩

/-- Behind a quote an apostrophe is one of its own. -/
theorem reads_apostrophe (h : OnText lx) (hrem : remaining lx = chr '\'' :: cs) (hprev : lx.prevChar = chr '"') :
    Reads (chr '\'' :: cs) lx := by
  have hcur : lx.currentChar = chr '\'' := h.current_eq hrem
  refine ⟨h, hrem, by simp [inString, hcur], ?_⟩
  unfold inChar
  rw [hprev]
  rfl

/-- What stands in front of the quote. -/
theorem lexes_opening (spelling vs : CStr) : Lexes (stringLine spelling ++ vs) [atToken, dataToken]
    ([chr ' '] ++ chr '"' :: (spelling ++ chr '"' :: chr '\n' :: vs)) := by
  have hdata : IsWord (cstr "data") := by decide
  have hat : (chr '@', atToken) ∈ oneChars := by simp [oneChars, atToken]
  have hword : wordToken (cstr "data") = dataToken := wordToken_keywords.2.2.2
  unfold stringLine
  rw [List.append_assoc, List.append_assoc, ← hword]
  exact (lexes_one no_blanks hat).trans (hdata.lexes no_blanks (space_ends _))

/-- The tokens of the line. -/
def stringTokens (s : CStr) : List TasmToken := [atToken, dataToken, quotaToken, ⟨.string, some s⟩, quotaToken]

theorem reads_stringLine {s spelling vs src : CStr} (hreach : LexReach (tasmLexerInit src) lx) (hvs : vs.headD 0 ≠ 0)
    (h : Reads (stringLine spelling ++ vs) lx) (hs : StringLiteral s spelling) (hhead : s.headD 0 ≠ chr '\'') :
    ∃ lx', Reads vs lx' ∧ LexCalls lx (stringTokens s ++ [endlineToken]) lx' ∧ lx'.reports = lx.reports := by
  obtain ⟨lx₁, h₁, hopening⟩ := lexes_opening spelling vs lx h
  obtain ⟨lx₂, ⟨htext₂, hrem₂, hprev₂⟩, hquota⟩ := quote_call one_blank h₁ (.inl ⟨rfl, rfl⟩)
  have hcalls₂ : LexCalls lx [atToken, dataToken, quotaToken] lx₂ := hopening.append (.cons hquota (by decide) (.nil lx₂))
  obtain ⟨lx₃, htext₃, hrem₃, hreports₃, hstring⟩ := string_call htext₂ (LexReach.fresh (hreach.trans hcalls₂.reach)) hprev₂
    hrem₂ hvs hs hhead
  obtain ⟨lx₄, ⟨htext₄, hrem₄, -⟩, hquota'⟩ := quote_call no_blanks (reads_quote htext₃ hrem₃) (.inl ⟨rfl, rfl⟩)
  have hnewline : (chr '\n', endlineToken) ∈ oneChars := by simp [oneChars, endlineToken]
  obtain ⟨lx₅, h₅, hcalls₅⟩ := lexes_one no_blanks hnewline lx₄ (Reads.of_ends htext₄ hrem₄ (.inl rfl))
  have hcalls' : LexCalls lx₃ [quotaToken, endlineToken] lx₅ := .cons hquota' (by decide) hcalls₅
  refine ⟨lx₅, h₅, ?_, ?_⟩
  · exact hcalls₂.append (.cons hstring (by simp) hcalls')
  · exact (hcalls'.quiet htext₃ (by decide)).trans (hreports₃.trans (hcalls₂.quiet h.onText (by decide)))

/-- A literal that starts with an apostrophe is not scanned. -/
theorem lexes_apostrophe {rest vs : CStr} (h : Reads (stringLine (chr '\'' :: rest) ++ vs) lx) :
    ∃ lx', LexCalls lx [atToken, dataToken, quotaToken, apostToken] lx' := by
  obtain ⟨lx₁, h₁, hopening⟩ := lexes_opening (chr '\'' :: rest) vs lx h
  obtain ⟨lx₂, ⟨htext₂, hrem₂, hprev₂⟩, hquota⟩ := quote_call one_blank h₁ (.inl ⟨rfl, rfl⟩)
  obtain ⟨lx₃, -, hapost⟩ := quote_call no_blanks (reads_apostrophe htext₂ hrem₂ hprev₂) (.inr ⟨rfl, rfl⟩)
  exact ⟨lx₃, hopening.append (.cons hquota (by decide) (.cons hapost (by decide) (.nil lx₃)))⟩

end Tokens

/-! ## Nodes -/

section Nodes

variable {p : TasmParser} {s : CStr} {us : List TasmToken} {fuel : Nat}

/-- The parser at the tokens of the line. -/
theorem line_string (hchars : ∀ c ∈ s, c ≠ 0) :
    Grammar.line fuel (stringTokens s ++ us) = some (some (.data (some (.string s s.length))), us) := by
  have hquota : quotaToken.type = .quota := rfl
  have hlength : (s.takeWhile (· ≠ 0)).length = s.length := by
    rw [List.takeWhile_eq_self_iff.mpr (by simpa using hchars)]
  have hvalue : dataValue (quotaToken :: ⟨.string, some s⟩ :: quotaToken :: us) = some (some (.string s s.length), us) := by
    simpa [dataValue, strLit, expect, first, hquota] using hlength
  have hword : wordToken (cstr "data") = dataToken := wordToken_keywords.2.2.2
  simp only [stringTokens, List.cons_append, List.nil_append, ← hword, line_at_data, hvalue]
  rfl

theorem line_apostrophe : Grammar.line fuel (atToken :: dataToken :: quotaToken :: apostToken :: us) = none := by
  have hword : wordToken (cstr "data") = dataToken := wordToken_keywords.2.2.2
  rw [← hword, line_at_data]
  rfl

theorem appended (t : TasmTranslator) (scope : Option CStr) (isCall : Bool) : ∃ t',
    tasmTranslateLine t scope isCall (.data (some (.string s s.length))) = .ok t' ∧ Appended s t t' := by
  have hbytes : dataBytes (.string s s.length) = .ok (some s) := by simp [dataBytes]
  show ∃ t', tasmTranslateData t (some (.string s s.length)) = .ok t' ∧ Appended s t t'
  unfold tasmTranslateData
  rw [Except.bind_of_ok (show nonNull (some _) = _ from rfl), Except.bind_of_ok hbytes]
  exact ⟨_, rfl, rfl, rfl, rfl, rfl, rfl, rfl⟩

end Nodes

/-! ## Literals -/

section Literals

variable {s spelling : CStr}

/-- The literal is accepted if the string does not start with an apostrophe. -/
theorem StringLiteral.appends (hs : StringLiteral s spelling) (hhead : s.headD 0 ≠ chr '\'') : Appends spelling s := by
  refine ⟨stringTokens s, .data (some (.string s s.length)), ?_, ?_, appended⟩
  · rintro src lx vs hreach hvs hreads
    exact reads_stringLine hreach hvs hreads hs hhead
  · rintro fuel p us hp
    have hagrees := line_agrees hp fuel
    rw [line_string fun c hc => (hs.chars c hc).1] at hagrees
    exact hagrees

/-- If it does, the parser finds the apostrophe behind the quote. -/
theorem StringLiteral.not_appends (hs : StringLiteral s spelling) (hhead : s.headD 0 = chr '\'') : ¬ Appends spelling s := by
  rintro ⟨tokens, node, hlex, hparse, -⟩
  obtain ⟨d, rest, rfl, -, hsame⟩ := hs.spelled.head hs.ne
  obtain rfl := hsame.mpr hhead
  -- in a text with the line alone
  have hreads : Reads (stringLine (chr '\'' :: rest) ++ [eofChar, 0])
      (tasmLexerInit (marked (stringLine (chr '\'' :: rest)))) := reads_init (show chr '@' ≠ chr '\'' by decide)
  obtain ⟨lx', -, hcalls, -⟩ := hlex _ _ _ .refl (by decide) hreads
  obtain ⟨lx₂, hcalls₂⟩ := lexes_apostrophe hreads
  rcases hcalls.comparable hcalls₂ with hshorter | hlonger
  · -- the newline is not among the first four tokens
    have hmem := hshorter.subset (show endlineToken ∈ tokens ++ [endlineToken] by simp)
    revert hmem
    decide
  · obtain ⟨us, hus⟩ := hlonger
    obtain ⟨p, hp⟩ := exists_stands hcalls.ne_eof
    obtain ⟨p', hline, hp'⟩ := hparse 0 p [] hp
    have hagrees := line_agrees hp 0
    rw [← hus, List.cons_append, List.cons_append, List.cons_append, List.cons_append, List.nil_append,
      line_apostrophe] at hagrees
    cases (hagrees _ hline).symm.trans hp'.noErr

end Literals

/-- A string is written and read back, in every spelling, if and only if it does not start with an apostrophe. -/
theorem string_literal_iff {s spelling : CStr} (hs : StringLiteral s spelling) : Appends spelling s ↔ s.headD 0 ≠ chr '\'' := by
  constructor
  · intro happends hhead
    exact hs.not_appends hhead happends
  · intro hhead
    exact hs.appends hhead

theorem string_literal_escaped : Appends (cstr "a\\\"\\n") (cstr "a\"\n") := by
  have ha : Escapes (chr 'a') [chr 'a'] := .plain (by decide) (by decide) (by decide)
  have hspelled : Spelled (cstr "a\"\n") (cstr "a\\\"\\n") := .cons ha (.cons .quote (.cons .newline .nil))
  exact (string_literal_iff ⟨by decide, by decide, by decide, hspelled⟩).mpr (by decide)

/-- A letter in apostrophes is refused. -/
theorem apostrophe_refused : StringLiteral (cstr "'a'") (cstr "'a'") ∧ ¬ Appends (cstr "'a'") (cstr "'a'") := by
  have hplain {c : Char} (hc : c = 'a' ∨ c = '\'') : Escapes (chr c) [chr c] := by
    rcases hc with rfl | rfl <;> exact .plain (by decide) (by decide) (by decide)
  have hspelled : Spelled (cstr "'a'") (cstr "'a'") :=
    .cons (hplain (.inr rfl)) (.cons (hplain (.inl rfl)) (.cons (hplain (.inr rfl)) .nil))
  have hliteral : StringLiteral (cstr "'a'") (cstr "'a'") := ⟨by decide, by decide, by decide, hspelled⟩
  exact ⟨hliteral, hliteral.not_appends (by decide)⟩

end TileVm
