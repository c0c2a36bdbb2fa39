/-
The lexer on a text with an addition at the end of a line, beside the text without it. In front of the
line end the two runs return the same tokens. Behind it they differ by the comment at most, unless the
line ends with a quote: then the first character that was added is the text of a literal.
-/
import TileVm.Tasm.Layout

namespace TileVm

/-! ## Two runs -/

/-- The last of the tokens, if there is one, is no comment. -/
def NoteFree (ts : List TasmToken) : Bool := ts.getLast?.all (·.type != .comment)

/-- The runs on both texts up to the tokens `ts`, in front of the border. -/
structure Runs (before w rest : List Byte) (ts : List TasmToken) (a : List Byte) (lx lx' : TasmLexer) : Prop where
  left : LexCalls (tasmLexerInit (marked (before ++ rest))) ts lx
  right : LexCalls (tasmLexerInit (marked (before ++ w ++ rest))) ts lx'
  twin : Twin (marked rest) (w ++ marked rest) a lx lx'
  comment : ∀ t ∈ ts.getLast?, t.type = .comment → a.head? = some (chr '\n')

section Runs

variable {before w rest a cs : List Byte} {ts us us' : List TasmToken} {t : TasmToken} {lx lx' lx₁ lx₁' : TasmLexer}

theorem marked_added (before w rest : List Byte) : marked (before ++ w ++ rest) = before ++ (w ++ marked rest) := by
  simp [marked]

theorem marked_before (before rest : List Byte) : marked (before ++ rest) = before ++ marked rest := by
  simp [marked]

theorem Layout.head_plain (hw : Layout w) (hne : w ≠ []) : ∀ c, c = w.headD 0 →
    c ≠ chr '"' ∧ c ≠ chr '\n' ∧ c ≠ eofChar ∧ c ≠ chr '\'' := by
  rintro c rfl
  rcases hw.head hne with h | h
  · obtain ⟨hn, -, heof, hquote, hapost, -⟩ := isBlank_plain _ h
    exact ⟨hquote, hn, heof, hapost⟩
  · rw [h]
    decide

/-- At the start of a text the character before is the current one. -/
theorem init_calm (h : cs.headD 0 ≠ chr '\'') : Calm (tasmLexerInit cs) := by
  have hcur : (tasmLexerInit cs).currentChar = cs.headD 0 := (OnText.init cs).current_eq rfl
  have hprev : (tasmLexerInit cs).prevChar = cs.headD 0 := hcur
  unfold Calm inString inChar
  rw [hprev, hcur]
  generalize cs.headD 0 = c at h
  by_cases hquote : c = chr '"'
  · simp [hquote]
  · simp [hquote, h]

/-- At the start. -/
theorem Addition.runs (h : Addition before w rest) (hplain : ∀ c ∈ before, ¬ StaysAt c) :
    Runs before w rest [] before (tasmLexerInit (marked (before ++ rest))) (tasmLexerInit (marked (before ++ w ++ rest))) := by
  refine ⟨.nil _, .nil _, ⟨.init _, .init _, marked_before .., marked_added .., hplain, ?_, Iff.rfl⟩, by simp⟩
  rw [marked_before before, marked_added]
  cases before with
  | nil =>
    refine .inr ⟨init_calm ?_, init_calm ?_⟩
    · rw [List.nil_append]
      rcases h.ends.row with he | he <;> rw [he] <;> decide
    · obtain ⟨c, w', rfl⟩ := List.exists_cons_of_ne_nil h.ne
      exact (h.layout.head_plain h.ne c rfl).2.2.2
  | cons c before => exact .inl rfl

/-- A call in front of the border. -/
theorem Runs.step (hrun : Runs before w rest ts a lx lx') (h : Addition before w rest) (hin : StaysIn lx a)
    (hcall : LexCall lx t lx₁) (hne : t.type ≠ .eof) :
    ∃ b lx₁', LexCall lx' t lx₁' ∧ Runs before w rest (ts ++ [t]) b lx₁ lx₁' := by
  obtain ⟨lx₁', hcall', b, htwin, hcomment⟩ := hcall.twin hrun.twin (h.layout.border h.ne h.ends) (.inr hin)
  refine ⟨b, lx₁', hcall', hrun.left.append (.cons hcall hne (.nil _)), hrun.right.append (.cons hcall' hne (.nil _)), htwin, ?_⟩
  intro t' ht' htype
  rw [List.getLast?_concat] at ht'
  cases ht'
  exact (hcomment htype).resolve_right (h.layout.not_locked h.ne)

theorem Runs.step_added (hrun : Runs before w rest ts a lx lx') (h : Addition before w rest) (hin : StaysIn lx a)
    (hcall' : LexCall lx' t lx₁') (hne : t.type ≠ .eof) :
    ∃ b lx₁, LexCall lx t lx₁ ∧ Runs before w rest (ts ++ [t]) b lx₁ lx₁' := by
  have hborder := (h.layout.border h.ne h.ends).symm
  obtain ⟨lx₁, hcall, -⟩ := hcall'.twin hrun.twin.symm hborder (.inr (hrun.twin.inside hin))
  obtain ⟨b, lx₂', hcall₂, hrun⟩ := hrun.step h hin hcall hne
  obtain ⟨-, rfl⟩ := hcall'.unique hcall₂
  exact ⟨b, lx₁, hcall, hrun⟩

/-- A call that is not inside reads what could be an addition itself. -/
theorem layout_of_not_staysIn (hcalm : Calm lx) (hplain : ∀ c ∈ a, ¬ StaysAt c) (hin : ¬ StaysIn lx a) : Layout a := by
  unfold StaysIn at hin
  rw [hcalm.1, hcalm.2, if_neg (by decide), if_neg (by decide)] at hin
  have hblank : ∀ c ∈ a.takeWhile isBlank, isBlank c = true := fun c hc => List.mem_takeWhile_imp hc
  cases hdrop : a.dropWhile isBlank with
  | nil => exact .blanks (List.dropWhile_eq_nil_iff.mp hdrop)
  | cons c cs =>
    rw [hdrop] at hin
    have hsplit : a = a.takeWhile isBlank ++ c :: cs := by rw [← hdrop, List.takeWhile_append_dropWhile]
    obtain ⟨hc, hline⟩ : c = chr ';' ∧ chr '\n' ∉ c :: cs := by simpa using hin
    subst hc
    rw [hsplit]
    refine .comment hblank fun d hd => ?_
    have hmem : d ∈ a := by
      rw [hsplit]
      simp [hd]
    refine ⟨?_, fun hzero => hplain d hmem (.inl hzero), fun heof => hplain d hmem (.inr heof)⟩
    rintro rfl
    exact hline (List.mem_cons_of_mem _ hd)

/-- Where the tokens hold whole literals, the lexer scans one behind an open quote only. -/
theorem LexTokens.opens (hus : LexTokens lx us) (hq : Quoted (ts ++ us)) (hscan : inString lx = true ∨ inChar lx = true) :
    openQuote ts ≠ none := by
  cases hus with
  | eof call => exact absurd (call_literal hscan call) (by decide)
  | cons call _ _ => exact hq.opens (call_literal hscan call)

/-- There both lexers stand before it, and neither scans a literal, unless a quote is the last character of the line. -/
theorem Runs.gap (hrun : Runs before w rest ts a lx lx') (h : Addition before w rest) (hin : ¬ StaysIn lx a)
    (hopens : a ≠ [] → inString lx = true ∨ inChar lx = true → openQuote ts ≠ none) : Layout a ∧ Reads (a ++ marked rest) lx ∧
      (¬ EndsLiteral before rest → Reads (a ++ (w ++ marked rest)) lx') := by
  by_cases hnil : a = []
  · subst hnil
    have hreads : Reads (marked rest) lx := .of_ends hrun.twin.left hrun.twin.rest h.ends.row
    refine ⟨.blanks (by simp), hreads, fun hends => ?_⟩
    rcases hrun.twin.prev with hprev | ⟨-, hcalm⟩
    swap
    · exact ⟨hrun.twin.right, hrun.twin.rest', hcalm.1, hcalm.2⟩
    have hquote : ¬ (lx.prevChar = chr '"' ∨ lx.prevChar = chr '\'') := by
      intro hquote
      rcases List.eq_nil_or_concat ts with rfl | ⟨ts, t, rfl⟩
      · -- the first character is that of the rest
        cases hrun.left
        have hhead : (tasmLexerInit (marked (before ++ rest))).prevChar = (marked rest).headD 0 :=
          hreads.onText.current_eq hreads.rest
        rw [hhead] at hquote
        rcases h.ends.row with he | he <;> rw [he] at hquote <;> exact absurd hquote (by decide)
      · rw [List.concat_eq_append] at hrun
        exact hends ⟨ts, t, lx, hrun.left, hrun.twin.rest, fun ht => absurd (hrun.comment t (by simp) ht) (by simp), hquote⟩
    obtain ⟨hstring, hchar⟩ := not_or.mp hquote
    exact .of_prev hrun.twin.right hrun.twin.rest' (hprev ▸ hstring) (hprev ▸ hchar)
  · have hnone : ¬ (inString lx = true ∨ inChar lx = true) := fun hscan =>
      h.outside ⟨ts, lx, a, hrun.left, hrun.twin.rest, hopens hnil hscan, .inr ⟨hscan, hin⟩⟩
    have hcalm : Calm lx := by simpa [Calm] using hnone
    obtain ⟨hstring, hchar⟩ := hrun.twin.mode (.inl hnil)
    refine ⟨layout_of_not_staysIn hcalm hrun.twin.plain hin, ⟨hrun.twin.left, hrun.twin.rest, hcalm.1, hcalm.2⟩, fun _ => ?_⟩
    exact ⟨hrun.twin.right, hrun.twin.rest', hstring.trans hcalm.1, hchar.trans hcalm.2⟩

/-- Behind a comment comes the end of its line. -/
theorem Runs.noteFree (hrun : Runs before w rest ts a lx lx') (ha : Layout a) : NoteFree ts = true := by
  have hlast : ∀ t, ts.getLast? = some t → t.type ≠ .comment := by
    intro t ht htype
    have hhead := hrun.comment t ht htype
    exact (ha.chars _ (List.mem_of_head? hhead)).1 rfl
  unfold NoteFree
  cases hts : ts.getLast? with
  | none => rfl
  | some t => simpa using hlast t hts

/-- The rest of the runs from there on. -/
theorem Runs.cross (hrun : Runs before w rest ts a lx lx') (h : Addition before w rest) (hends : ¬ EndsLiteral before rest)
    (hin : ¬ StaysIn lx a) (hopens : a ≠ [] → inString lx = true ∨ inChar lx = true → openQuote ts ≠ none) :
    (∀ us, LexTokens lx us → ∃ us', LexTokens lx' us' ∧ Noted (NoteFree ts) us us') ∧
      ∀ us', LexTokens lx' us' → ∃ us, LexTokens lx us ∧ Noted (NoteFree ts) us us' := by
  obtain ⟨ha, hreads, hreads'⟩ := hrun.gap h hin hopens
  rw [hrun.noteFree ha]
  have hreads' := hreads' hends
  rw [← List.append_assoc] at hreads'
  obtain ⟨l, hl, hpeek, htokens⟩ := ha.tokens h.ends hreads
  obtain ⟨l', hl', hpeek', htokens'⟩ := (ha.append h.layout).tokens h.ends hreads'
  have hcounter : l.peek = 0 ↔ l'.peek = 0 := by
    rw [hpeek, hpeek']
    exact hrun.twin.peek
  constructor
  · intro us hus
    obtain ⟨vs, rfl, hvs⟩ := (htokens us).mp hus
    exact ⟨_, (htokens' _).mpr ⟨vs, rfl, hl.tokens hl' hcounter hvs⟩, noted_append (hl.first_endline h.ends hvs)⟩
  · intro us' hus'
    obtain ⟨vs, rfl, hvs⟩ := (htokens' us').mp hus'
    exact ⟨_, (htokens _).mpr ⟨vs, rfl, hl'.tokens hl hcounter.symm hvs⟩, noted_append (hl'.first_endline h.ends hvs)⟩

theorem noteFree_concat (ts : List TasmToken) (t : TasmToken) : NoteFree (ts ++ [t]) = (t.type != .comment) := by
  simp [NoteFree]

/-- Unless the line ends with a quote, the tokens differ by a comment at most, as far as they hold whole literals. -/
theorem Runs.tokens (hrun : Runs before w rest ts a lx lx') (h : Addition before w rest) (hends : ¬ EndsLiteral before rest)
    (hus : LexTokens lx us) (hq : Quoted (ts ++ us)) : ∃ us', LexTokens lx' us' ∧ Noted (NoteFree ts) us us' := by
  induction hus generalizing ts a lx' with
  | eof call =>
    rename_i lx lx₁
    by_cases hin : StaysIn lx a
    · obtain ⟨lx₁', call', -⟩ := call.twin hrun.twin (h.layout.border h.ne h.ends) (.inr hin)
      exact ⟨[], .eof call', .refl _ _⟩
    · exact (hrun.cross h hends hin fun _ => (LexTokens.eof call).opens hq).1 _ (.eof call)
  | cons call ne hrest ih =>
    rename_i lx lx₁ t us
    by_cases hin : StaysIn lx a
    · obtain ⟨b, lx₁', call', hrun'⟩ := hrun.step h hin call ne
      obtain ⟨us', hus', hnoted⟩ := ih hrun' (by rwa [List.append_assoc, List.singleton_append])
      rw [noteFree_concat] at hnoted
      exact ⟨t :: us', .cons call' ne hus', .cons _ t hnoted⟩
    · exact (hrun.cross h hends hin fun _ => (LexTokens.cons call ne hrest).opens hq).1 _ (.cons call ne hrest)

/-- In front of the border the other lexer scans a literal too. -/
theorem Runs.opens_added (hrun : Runs before w rest ts a lx lx') (hus' : LexTokens lx' us') (hq : Quoted (ts ++ us'))
    (hne : a ≠ []) (hscan : inString lx = true ∨ inChar lx = true) : openQuote ts ≠ none := by
  obtain ⟨hstring, hchar⟩ := hrun.twin.mode (.inl hne)
  rw [← hstring, ← hchar] at hscan
  exact hus'.opens hq hscan

theorem Runs.tokens_added (hrun : Runs before w rest ts a lx lx') (h : Addition before w rest)
    (hends : ¬ EndsLiteral before rest) (hus' : LexTokens lx' us') (hq : Quoted (ts ++ us')) :
    ∃ us, LexTokens lx us ∧ Noted (NoteFree ts) us us' := by
  induction hus' generalizing ts a lx with
  | eof call' =>
    rename_i lx' lx₁'
    by_cases hin : StaysIn lx a
    · obtain ⟨lx₁, call, -⟩ := call'.twin hrun.twin.symm (h.layout.border h.ne h.ends).symm (.inr (hrun.twin.inside hin))
      exact ⟨[], .eof call, .refl _ _⟩
    · exact (hrun.cross h hends hin (hrun.opens_added (.eof call') hq)).2 _ (.eof call')
  | cons call' ne hrest ih =>
    rename_i lx' lx₁' t us'
    by_cases hin : StaysIn lx a
    · obtain ⟨b, lx₁, call, hrun'⟩ := hrun.step_added h hin call' ne
      obtain ⟨us, hus, hnoted⟩ := ih hrun' (by rwa [List.append_assoc, List.singleton_append])
      rw [noteFree_concat] at hnoted
      exact ⟨t :: us, .cons call ne hus, .cons _ t hnoted⟩
    · exact (hrun.cross h hends hin (hrun.opens_added (.cons call' ne hrest) hq)).2 _ (.cons call' ne hrest)

end Runs

/-! ## Behind a quote -/

section Quote

variable {before w rest a : List Byte} {ts us vs : List TasmToken} {t : TasmToken} {lx lx' lx₁ : TasmLexer} {P : TasmLexer → Prop}

/-- What the lexer keeps when it advances, peeks and reports, every call keeps. -/
theorem LexCall.keeps (hadv : ∀ l, P l → P (tasmLexerAdvance l)) (hpeek : ∀ l k, P l → P { l with peek := k })
    (hreport : ∀ l e, P l → P (l.report e)) (hcall : LexCall lx t lx₁) (h : OnText lx) (hlx : P lx) : P lx₁ := by
  obtain ⟨fuel, hr⟩ := hcall
  cases hstr : inString lx with
  | false => exact (getNextToken_advances hadv hlx hstr).of_ok hr
  | true =>
    unfold tasmLexerGetNextToken tasmLexerCollectStr at hr
    rw [if_pos hstr] at hr
    obtain ⟨⟨l, lim⟩, hline, hr⟩ := Except.bind_ok hr
    obtain ⟨hscan, -⟩ := lineEndLoop_onText h hline
    cases hscan
    obtain ⟨peek, hreset, -⟩ := peekReset_onText h (lineLength (remaining lx) + 1)
    dsimp only at hr
    rw [hreset] at hr
    obtain ⟨⟨l, s⟩, hloop, hr⟩ := Except.bind_ok hr
    have hbody (s : TasmLexer × List Byte) (hs : P s.1) : (strBody s).Post (fun _ => True) fun s' => P s'.1 := by
      unfold strBody
      dsimp only
      refine .ite (fun _ => ?_) fun _ => ?_
      · split
        · exact .map (.intro (fun _ _ => trivial) fun _ _ => hadv _ (hadv _ hs))
        · exact .ok (hadv _ (hreport _ _ (hadv _ hs)))
      · exact .map (.intro (fun _ _ => trivial) fun _ _ => hadv _ hs)
    have hscanned := (Loop.run_post trivial (fun s : TasmLexer × List Byte => P s.1) (fun s hs _ => hbody s hs) _ _
      (hpeek lx peek hlx)).of_ok hloop
    obtain ⟨val, -, hr⟩ := Except.bind_ok hr
    cases hr
    dsimp only
    split
    · exact hreport _ _ hscanned.1
    · exact hscanned.1

theorem advance_forward (lx : TasmLexer) : (tasmLexerAdvance lx).sourceCode = lx.sourceCode ∧
    lx.cursor ≤ (tasmLexerAdvance lx).cursor := by
  unfold tasmLexerAdvance
  dsimp only
  split_ifs <;> simp

/-- No call goes back. -/
theorem LexCall.remaining_le (hcall : LexCall lx t lx₁) (h : OnText lx) :
    (remaining lx₁).length ≤ (remaining lx).length := by
  have hforward : lx₁.sourceCode = lx.sourceCode ∧ lx.cursor ≤ lx₁.cursor := by
    refine hcall.keeps (P := fun l => l.sourceCode = lx.sourceCode ∧ lx.cursor ≤ l.cursor) ?_ ?_ ?_ h ⟨rfl, Nat.le_refl _⟩
    · rintro l ⟨hsource, hcursor⟩
      obtain ⟨hsame, hle⟩ := advance_forward l
      exact ⟨hsame.trans hsource, Nat.le_trans hcursor hle⟩
    · exact fun _ _ hl => hl
    · exact fun _ _ hl => hl
  unfold remaining
  rw [hforward.1, List.length_drop, List.length_drop]
  exact Nat.sub_le_sub_left hforward.2 _

theorem LexCalls.remaining_le (hcalls : LexCalls lx ts lx₁) (h : OnText lx) :
    (remaining lx₁).length ≤ (remaining lx).length := by
  induction hcalls with
  | nil => exact Nat.le_refl _
  | cons call _ _ ih => exact Nat.le_trans (ih (call.reports h).1) (call.remaining_le h)

/-- From the end of a line on, a call goes past it. -/
theorem Reads.past (h : Reads (marked rest) lx) (hrest : EndsLine rest) (hcalls : LexCalls lx (t :: ts) lx₁) :
    remaining lx₁ ≠ marked rest := by
  cases hcalls with
  | cons call ne hcalls =>
    obtain ⟨-, r, rfl, hrem⟩ := (h.endline hrest call).resolve_left ne
    have hle := hcalls.remaining_le (call.reports h.onText).1
    rw [hrem] at hle
    intro heq
    rw [heq] at hle
    simp [marked] at hle

theorem LexCalls.tokens_rest (hcalls : LexCalls lx ts lx₁) (hvs : LexTokens lx vs) : ∃ us, vs = ts ++ us ∧ LexTokens lx₁ us := by
  induction hcalls generalizing vs with
  | nil => exact ⟨vs, rfl, hvs⟩
  | cons call ne _ ih =>
    rcases hvs.uncons call with ⟨he, -⟩ | ⟨us, rfl, hus⟩
    · exact absurd he ne
    · obtain ⟨us', rfl, hus'⟩ := ih hus
      exact ⟨us', rfl, hus'⟩

/-- The run up to the end of the line, if the last token is no comment. -/
theorem Runs.along (hrun : Runs before w rest ts a lx lx') (h : Addition before w rest)
    (hvs : LexTokens (tasmLexerInit (marked (before ++ w ++ rest))) vs) (hq : Quoted vs) (hcalls : LexCalls lx us lx₁)
    (hrem : remaining lx₁ = marked rest) (hlast : ∀ t ∈ us.getLast?, t.type ≠ .comment) :
    ∃ lx₁', Runs before w rest (ts ++ us) [] lx₁ lx₁' := by
  induction hcalls generalizing ts a lx' with
  | nil lx =>
    have hnil : a = [] := List.append_left_eq_self.mp (hrun.twin.rest.symm.trans hrem)
    subst hnil
    rw [List.append_nil]
    exact ⟨lx', hrun⟩
  | cons call ne hrest ih =>
    rename_i lx lx₂ lx₁ t us
    have hlast' : ∀ s ∈ us.getLast?, s.type ≠ .comment := fun s hs => hlast s (by
      cases us with
      | nil => cases hs
      | cons u us => simpa using hs)
    by_cases hin : StaysIn lx a
    · obtain ⟨b, lx₂', -, hrun'⟩ := hrun.step h hin call ne
      obtain ⟨lx₁', hrun₁⟩ := ih hrun' hrem hlast'
      rw [List.append_assoc, List.singleton_append] at hrun₁
      exact ⟨lx₁', hrun₁⟩
    · -- the next call would go past the line end, or it reads a comment up to there
      exfalso
      obtain ⟨us', rfl, hus'⟩ := hrun.right.tokens_rest hvs
      obtain ⟨ha, hreads, -⟩ := hrun.gap h hin (hrun.opens_added hus' hq)
      obtain ⟨l, hl, -, ⟨-, hsame⟩ | ⟨-, hcomment⟩⟩ := ha.calls h.ends hreads
      · exact hl.past h.ends (.cons ((hsame _ _).mp call) ne hrest) hrem
      · obtain ⟨rfl, rfl⟩ := hcomment.unique call
        cases us with
        | nil => exact hlast _ rfl rfl
        | cons u us => exact hl.past h.ends hrest hrem

/-- Past a character at which the lexer stays there are no calls. -/
theorem LexCalls.locked {u u' : List Byte} (hcalls : LexCalls lx ts lx₁) (h : Twin u u' a lx lx') (hb : Border u u')
    (hlock : Locked u u') : ∃ b, remaining lx₁ = b ++ u := by
  induction hcalls generalizing a lx' with
  | nil => exact ⟨a, h.rest⟩
  | cons call _ _ ih =>
    obtain ⟨lx₁', -, b, htwin, -⟩ := call.twin h hb (.inl hlock)
    exact ih htwin

end Quote

/-! ## All tokens -/

section Tokens

variable {before w rest a v v' : List Byte} {ts us vs : List TasmToken} {s : TasmToken} {e : Byte} {lx lx₁ : TasmLexer}

/-- A border at a character at which the lexers stay. -/
theorem border_stay (he : StaysAt e) (hzero : strlen v = 0 ↔ strlen v' = 0) : Border (e :: v) (e :: v') := by
  refine ⟨.inl ⟨e, v, v', rfl, rfl, he⟩, ?_, ?_⟩
  · rcases he with rfl | rfl
    · exact iff_of_false (Nat.not_lt_zero _) (Nat.not_lt_zero _)
    · exact iff_of_true (Nat.zero_lt_succ _) (Nat.zero_lt_succ _)
  · rcases he with rfl | rfl
    · exact iff_of_true (Nat.zero_le _) (Nat.zero_le _)
    · have hlen (cs : List Byte) : strlen (eofChar :: cs) ≤ lineLength (eofChar :: cs) + 1 ↔ strlen cs = 0 := by
        have hstrlen : strlen (eofChar :: cs) = strlen cs + 1 := by rw [strlen_cons, if_neg (by decide)]
        have hline : lineLength (eofChar :: cs) = 0 := rfl
        rw [hstrlen, hline]
        omega
      rw [hlen, hlen, hzero]

/-- Behind a character at which the lexer stays nothing matters. -/
theorem Addition.stay (h : Addition (a ++ e :: v) w rest) (he : StaysAt e) (ha : ∀ c ∈ a, ¬ StaysAt c) :
    ∃ u u', Twin u u' a (tasmLexerInit (marked (a ++ e :: v ++ rest))) (tasmLexerInit (marked (a ++ e :: v ++ w ++ rest))) ∧
      Border u u' ∧ Locked u u' ∧ (marked rest).length < u.length := by
  have hzero : strlen (v ++ marked rest) = 0 ↔ strlen (v ++ (w ++ marked rest)) = 0 := by
    cases v with
    | nil => exact (h.layout.border h.ne h.ends).strlen_zero
    | cons c v =>
      rw [List.cons_append, List.cons_append, strlen_cons, strlen_cons]
      split <;> simp
  refine ⟨e :: (v ++ marked rest), e :: (v ++ (w ++ marked rest)), ⟨.init _, .init _, ?_, ?_, ha, ?_, Iff.rfl⟩,
    border_stay he hzero, ⟨e, _, _, rfl, rfl, he⟩, ?_⟩
  · show marked _ = _
    simp [marked]
  · show marked _ = _
    simp [marked]
  · left
    cases a <;> rfl
  · rw [List.length_cons, List.length_append]
    omega

/-- Unless the line ends with a quote, the tokens differ by a comment at most. -/
theorem Addition.tokens (h : Addition before w rest) (hends : ¬ EndsLiteral before rest) :
    (∀ ts, LexTokens (tasmLexerInit (marked (before ++ rest))) ts → Quoted ts →
        ∃ us, LexTokens (tasmLexerInit (marked (before ++ w ++ rest))) us ∧ Noted true ts us) ∧
      ∀ us, LexTokens (tasmLexerInit (marked (before ++ w ++ rest))) us → Quoted us →
        ∃ ts, LexTokens (tasmLexerInit (marked (before ++ rest))) ts ∧ Noted true ts us := by
  by_cases hstay : ∃ e ∈ before, StaysAt e
  · obtain ⟨a, e, v, rfl, he, ha⟩ := exists_stay hstay
    obtain ⟨u, u', htwin, hborder, hlock, -⟩ := h.stay he ha
    have hlock' : Locked u' u := by
      obtain ⟨e, v, v', hu, hu', he⟩ := hlock
      exact ⟨e, v', v, hu', hu, he⟩
    exact ⟨fun ts hts _ => ⟨ts, hts.twin htwin hborder hlock, .refl _ ts⟩,
      fun us hus _ => ⟨us, hus.twin htwin.symm hborder.symm hlock', .refl _ us⟩⟩
  · have hplain : ∀ c ∈ before, ¬ StaysAt c := fun c hc hs => hstay ⟨c, hc, hs⟩
    exact ⟨fun _ hts hq => (h.runs hplain).tokens h hends hts hq, fun _ hus hq => (h.runs hplain).tokens_added h hends hus hq⟩

theorem Placed.cursor_eq (h : Placed (before ++ v) lx) (hrem : remaining lx = marked v) : lx.cursor = before.length := by
  have hlen := congrArg List.length hrem
  have hin := h.inText
  unfold remaining at hlen
  rw [h.source] at hlen
  simp only [marked, List.length_drop, List.length_append, List.length_cons, List.length_nil] at hlen hin
  omega

/-- The lexers have come to the end of the line with the same character behind them. -/
theorem Runs.prev {lx' : TasmLexer} (hrun : Runs before w rest ts [] lx lx') (hne : before ≠ []) : lx'.prevChar = lx.prevChar := by
  have hplaced := hrun.left.reach.placed
  have hplaced' := hrun.right.reach.placed
  have hpos : 0 < before.length := List.length_pos_iff.mpr hne
  have hcursor := hplaced.cursor_eq hrun.twin.rest
  rw [List.append_assoc] at hplaced'
  have hcursor' := hplaced'.cursor_eq (hrun.twin.rest'.trans (marked_before w rest).symm)
  have hprev := hplaced.prev (hcursor ▸ hpos)
  have hprev' := hplaced'.prev (hcursor' ▸ hpos)
  rw [hcursor, marked_before, List.getElem?_append_left (by omega)] at hprev
  rw [hcursor', marked_before, List.getElem?_append_left (by omega)] at hprev'
  exact Option.some.inj (hprev'.symm.trans hprev)

/-- If it ends with a quote, the text of a literal follows that does not stand between quotes. -/
theorem Addition.quote (h : Addition before w rest) (hends : EndsLiteral before rest)
    (hvs : LexTokens (tasmLexerInit (marked (before ++ w ++ rest))) vs) : ¬ Quoted vs := by
  intro hquoted
  obtain ⟨ts, t, lx, hcalls, hrem, hcomment, hquote⟩ := hends
  by_cases hstay : ∃ e ∈ before, StaysAt e
  · -- the line end is not reached
    obtain ⟨a, e, v, rfl, he, ha⟩ := exists_stay hstay
    obtain ⟨u, u', htwin, hborder, hlock, hlen⟩ := h.stay he ha
    obtain ⟨b, hb⟩ := hcalls.locked htwin hborder hlock
    have hle := congrArg List.length (hrem.symm.trans hb)
    rw [List.length_append] at hle
    omega
  have hplain : ∀ c ∈ before, ¬ StaysAt c := fun c hc hs => hstay ⟨c, hc, hs⟩
  obtain ⟨lx', hrun⟩ := (h.runs hplain).along h hvs hquoted hcalls hrem (by simpa using hcomment)
  rw [List.nil_append] at hrun
  have hne : before ≠ [] := by
    rintro rfl
    -- at the start there is no quote behind the lexer
    have hplaced := hrun.left.reach.placed
    have hcursor : lx.cursor = 0 := hplaced.cursor_eq hrem
    rw [hplaced.start hcursor, hrun.twin.left.current_eq hrem] at hquote
    rcases h.ends.row with he | he <;> rw [he] at hquote <;> exact absurd hquote (by decide)
  rw [← hrun.prev hne] at hquote
  have hcur : lx'.currentChar = w.headD 0 := by
    rw [hrun.twin.right.current_eq hrun.twin.rest']
    obtain ⟨c, w', rfl⟩ := List.exists_cons_of_ne_nil h.ne
    rfl
  obtain ⟨hq, hn, heof, hapost⟩ := h.layout.head_plain h.ne _ hcur
  have hscan : inString lx' = true ∨ inChar lx' = true := by
    rcases hquote with hprev | hprev
    · exact .inl (by simp [inString, hprev, hq, hn, heof, hapost])
    · exact .inr (by simp [inChar, hprev, hq, hn, heof])
  obtain ⟨us, rfl, hus⟩ := hrun.right.tokens_rest hvs
  exact h.outside ⟨ts ++ [t], lx, [], hcalls, hrem, hus.opens hquoted hscan, .inl rfl⟩

end Tokens

end TileVm
