/-
Two lexers over texts that agree up to a border. As long as the border is not reached they read the
same tokens: what is behind it matters only by its first character, which ends every token, and by
whether its line ends in the text.
-/
import TileVm.Lib.Relate
import TileVm.Tasm.LexerText

namespace TileVm

open Except (Follows)

/-! ## The border -/

/-- A character at which the lexer stays. -/
def StaysAt (c : Byte) : Prop := c = 0 ∨ c = eofChar

instance (c : Byte) : Decidable (StaysAt c) := inferInstanceAs (Decidable (_ ∨ _))

/-- The characters that stand behind the last token of a line. -/
def lineRestChars : List Byte := [chr ' ', chr '\t', chr ';', chr '\n', eofChar]

/-- The number of characters in front of the first NUL. -/
def strlen (cs : List Byte) : Nat := (cs.takeWhile (· ≠ 0)).length

/-- Both texts start with the same character, at which the lexer stays. -/
def Locked (u u' : List Byte) : Prop := ∃ e v v', u = e :: v ∧ u' = e :: v' ∧ StaysAt e

/-- What may stand behind the common text: a character at which the lexer stays, or on both sides a rest of a line; and
the line that goes on there ends in both texts or in neither, and is the last one in both or in neither. -/
structure Border (u u' : List Byte) : Prop where
  heads : Locked u u' ∨ u.headD 0 ∈ lineRestChars ∧ u'.headD 0 ∈ lineRestChars
  ends : lineLength u < strlen u ↔ lineLength u' < strlen u'
  last : strlen u ≤ lineLength u + 1 ↔ strlen u' ≤ lineLength u' + 1

/-- The next call scans no literal. -/
def Calm (lx : TasmLexer) : Prop := inString lx = false ∧ inChar lx = false

/-- The two lexers have the text `a` in common, without a character at which they stay, and `u` and `u'` behind it. -/
structure Twin (u u' a : List Byte) (lx lx' : TasmLexer) : Prop where
  left : OnText lx
  right : OnText lx'
  rest : remaining lx = a ++ u
  rest' : remaining lx' = a ++ u'
  plain : ∀ c ∈ a, ¬ StaysAt c
  prev : lx'.prevChar = lx.prevChar ∨ Calm lx ∧ Calm lx'
  peek : lx.peek = 0 ↔ lx'.peek = 0

theorem advance_peek (lx : TasmLexer) : (tasmLexerAdvance lx).peek = lx.peek := by
  unfold tasmLexerAdvance
  dsimp only
  split <;> split <;> rfl

namespace Twin

variable {u u' a : List Byte} {c : Byte} {lx lx' : TasmLexer}

theorem symm (h : Twin u u' a lx lx') : Twin u' u a lx' lx where
  left := h.right
  right := h.left
  rest := h.rest'
  rest' := h.rest
  plain := h.plain
  prev := by
    rcases h.prev with hp | ⟨hl, hr⟩
    · exact .inl hp.symm
    · exact .inr ⟨hr, hl⟩
  peek := h.peek.symm

/-- Both go one character further. -/
theorem advance (h : Twin u u' (c :: a) lx lx') : Twin u u' a (tasmLexerAdvance lx) (tasmLexerAdvance lx') := by
  have hplain : c ≠ 0 ∧ c ≠ eofChar := not_or.mp (h.plain c (by simp))
  obtain ⟨hl, hrem, hprev⟩ := h.left.take h.rest hplain.1 hplain.2
  obtain ⟨hr, hrem', hprev'⟩ := h.right.take h.rest' hplain.1 hplain.2
  refine ⟨hl, hr, hrem, hrem', fun d hd => h.plain d (by simp [hd]), .inl (hprev'.trans hprev.symm), ?_⟩
  rw [advance_peek, advance_peek]
  exact h.peek

/-- Both stay. -/
theorem advance_locked (h : Twin u u' [] lx lx') (hlock : Locked u u') :
    Twin u u' [] (tasmLexerAdvance lx) (tasmLexerAdvance lx') := by
  obtain ⟨e, v, v', hu, hu', he⟩ := hlock
  have hend : AtEnd lx := by
    have hcur := h.left.current_eq h.rest
    rw [hu] at hcur
    exact he.imp hcur.trans hcur.trans
  have hend' : AtEnd lx' := by
    have hcur := h.right.current_eq h.rest'
    rw [hu'] at hcur
    exact he.imp hcur.trans hcur.trans
  rw [h.left.advance_end hend, h.right.advance_end hend']
  exact h

theorem current_cons (h : Twin u u' (c :: a) lx lx') : lx.currentChar = c ∧ lx'.currentChar = c :=
  ⟨h.left.current_eq h.rest, h.right.current_eq h.rest'⟩

/-- In front of the border, and at one where they stay, both see the same character. -/
theorem current (h : Twin u u' a lx lx') (hne : a ≠ [] ∨ Locked u u') : lx'.currentChar = lx.currentChar := by
  cases a with
  | cons c a => rw [h.current_cons.1, h.current_cons.2]
  | nil =>
    obtain ⟨e, v, v', hu, hu', -⟩ := hne.resolve_left (by simp)
    rw [h.left.current_eq h.rest, h.right.current_eq h.rest', hu, hu']
    rfl

theorem mode (h : Twin u u' a lx lx') (hne : a ≠ [] ∨ Locked u u') : inString lx' = inString lx ∧ inChar lx' = inChar lx := by
  rcases h.prev with hp | ⟨⟨hs, hc⟩, ⟨hs', hc'⟩⟩
  · unfold inString inChar
    rw [hp, h.current hne]
    exact ⟨rfl, rfl⟩
  · rw [hs, hs', hc, hc']
    exact ⟨rfl, rfl⟩

theorem setPeek (h : Twin u u' a lx lx') {k k' : Nat} (hl : OnText { lx with peek := k })
    (hr : OnText { lx' with peek := k' }) (hk : k = 0 ↔ k' = 0) :
    Twin u u' a { lx with peek := k } { lx' with peek := k' } :=
  ⟨hl, hr, h.rest, h.rest', h.plain, h.prev, hk⟩

theorem report (h : Twin u u' a lx lx') (e e' : LexError) : Twin u u' a (lx.report e) (lx'.report e') :=
  ⟨⟨h.left.size, h.left.cursor, h.left.current, h.left.next, h.left.peek⟩,
    ⟨h.right.size, h.right.cursor, h.right.current, h.right.next, h.right.peek⟩, h.rest, h.rest', h.plain, h.prev, h.peek⟩

end Twin

/-! ## Loops -/

section Loops

variable {u u' a : List Byte} {lx lx' : TasmLexer} {p : Byte → Bool} {fuel : Nat}

/-- A loop over the class does not pass the border: the lexers stay there, or the class ends there or before. -/
def HeldBy (p : Byte → Bool) (u u' a : List Byte) : Prop :=
  Locked u u' ∨ (p (u.headD 0) = false ∧ p (u'.headD 0) = false) ∨ ∃ c ∈ a, p c = false

/-- The states of two loops over a class, from the common text `a` on. -/
def ClassTwin (p : Byte → Bool) (u u' a : List Byte) (lx lx' : TasmLexer) : Prop :=
  ∃ b, Twin u u' b lx lx' ∧ b.dropWhile p = a.dropWhile p ∧ HeldBy p u u' b

theorem ClassTwin.cond (h : ClassTwin p u u' a lx lx') : p lx'.currentChar = p lx.currentChar := by
  obtain ⟨b, htwin, -, hheld⟩ := h
  cases b with
  | cons c b => rw [htwin.current (.inl (by simp))]
  | nil =>
    rcases hheld with hlock | ⟨hp, hp'⟩ | ⟨c, hc, -⟩
    · rw [htwin.current (.inr hlock)]
    · rw [htwin.left.current_eq htwin.rest, htwin.right.current_eq htwin.rest']
      exact hp'.trans hp.symm
    · cases hc

theorem ClassTwin.advance (h : ClassTwin p u u' a lx lx') (hp : p lx.currentChar = true) :
    ClassTwin p u u' a (tasmLexerAdvance lx) (tasmLexerAdvance lx') := by
  obtain ⟨b, htwin, hdrop, hheld⟩ := h
  cases b with
  | cons c b =>
    rw [htwin.current_cons.1] at hp
    refine ⟨b, htwin.advance, ?_, ?_⟩
    · rw [← hdrop, List.dropWhile_cons_of_pos hp]
    · rcases hheld with hlock | hheads | ⟨d, hd, hpd⟩
      · exact .inl hlock
      · exact .inr (.inl hheads)
      · rcases List.mem_cons.mp hd with rfl | hd
        · rw [hp] at hpd
          cases hpd
        · exact .inr (.inr ⟨d, hd, hpd⟩)
  | nil =>
    rcases hheld with hlock | ⟨hpu, -⟩ | ⟨c, hc, -⟩
    · exact ⟨[], htwin.advance_locked hlock, hdrop, .inl hlock⟩
    · rw [htwin.left.current_eq htwin.rest, List.nil_append, hpu] at hp
      cases hp
    · cases hc

theorem ClassTwin.exit (h : ClassTwin p u u' a lx lx') (hp : p lx.currentChar = false) :
    Twin u u' (a.dropWhile p) lx lx' := by
  obtain ⟨b, htwin, hdrop, -⟩ := h
  rw [← hdrop]
  cases b with
  | nil => exact htwin
  | cons c b =>
    rw [htwin.current_cons.1] at hp
    rwa [List.dropWhile_cons_of_neg (by simp [hp])]

theorem advanceWhile_twin (h : Twin u u' a lx lx') (hheld : HeldBy p u u' a) :
    (advanceWhile p fuel lx).Follows False (fun _ => True) (Twin u u' (a.dropWhile p)) (advanceWhile p fuel lx') := by
  have hloop : Follows False (fun _ => True)
      (fun l l' => ClassTwin p u u' a l l' ∧ p l.currentChar = false) (advanceWhile p fuel lx) (advanceWhile p fuel lx') :=
    Follows.loop (fun _ _ hs => hs.cond) (fun _ _ hs hp => .ok fun _ => hs.advance hp) fuel lx lx' ⟨a, h, rfl, hheld⟩
  exact hloop.mono (fun _ h => h) fun _ _ hl => hl.1.exit hl.2

theorem collectWhile_twin (h : Twin u u' a lx lx') (hheld : HeldBy p u u' a) (t : List Byte) :
    (collectWhile p fuel (lx, t)).Follows False (fun _ => True)
      (fun r r' => r'.2 = r.2 ∧ Twin u u' (a.dropWhile p) r.1 r'.1) (collectWhile p fuel (lx', t)) := by
  let I (s s' : TasmLexer × List Byte) : Prop := s'.2 = s.2 ∧ ClassTwin p u u' a s.1 s'.1
  have hbody : ∀ s s', I s s' → p s.1.currentChar = true →
      Follows False (fun _ => True) I ((tempPut s.2 s.1.currentChar).map fun text => (tasmLexerAdvance s.1, text))
        ((tempPut s'.2 s'.1.currentChar).map fun text => (tasmLexerAdvance s'.1, text)) := by
    rintro ⟨s, t⟩ ⟨s', t'⟩ ⟨ht, hs⟩ hp
    have ht : t' = t := ht
    have hcur : s'.currentChar = s.currentChar := by
      obtain ⟨b, htwin, -, hheld⟩ := hs
      cases b with
      | cons c b => exact htwin.current (.inl (by simp))
      | nil =>
        rcases hheld with hlock | ⟨hpu, -⟩ | ⟨c, hc, -⟩
        · exact htwin.current (.inr hlock)
        · have hp : p s.currentChar = true := hp
          rw [htwin.left.current_eq htwin.rest, List.nil_append, hpu] at hp
          cases hp
        · cases hc
    subst ht
    dsimp only
    rw [hcur]
    refine Follows.bind (Follows.refl _) fun text _ _ htext => .ok fun _ => ⟨htext, hs.advance hp⟩
  have hloop := Follows.loop (I := I) (fun _ _ hs => hs.2.cond) hbody fuel (lx, t) (lx', t) ⟨rfl, a, h, rfl, hheld⟩
  exact Follows.mono hloop (fun _ h => h) fun _ _ hr => ⟨hr.1.1, hr.1.2.exit hr.2⟩

end Loops

/-! ## Collectors -/

section Collectors

variable {u u' a : List Byte} {lx lx' : TasmLexer} {p : Byte → Bool} {fuel : Nat}

theorem Border.held (h : Border u u') (hp : ∀ c ∈ lineRestChars, p c = false) : HeldBy p u u' a :=
  h.heads.imp_right fun hheads => .inl ⟨hp _ hheads.1, hp _ hheads.2⟩

/-- The same token, and the lexers have a text in common again, which behind a comment begins with the end of the line. -/
def Matched (u u' : List Byte) (r r' : TasmToken × TasmLexer) : Prop :=
  r'.1 = r.1 ∧ ∃ b, Twin u u' b r.2 r'.2 ∧ (r.1.type = .comment → b.head? = some (chr '\n') ∨ Locked u u')

/-- Every result of `x` is one of `y`. -/
def Retraces (u u' : List Byte) (x y : Lex (TasmToken × TasmLexer)) : Prop :=
  x.Follows False (fun _ => True) (Matched u u') y

/-- Both go further, or both stay. -/
theorem Twin.step (h : Twin u u' a lx lx') (hne : a ≠ [] ∨ Locked u u') :
    Twin u u' a.tail (tasmLexerAdvance lx) (tasmLexerAdvance lx') := by
  cases a with
  | cons c a => exact h.advance
  | nil => exact h.advance_locked (hne.resolve_left (by simp))

theorem tempEnd_retraces {f : CStr → TokenType} (htype : ∀ v, f v ≠ .comment) (t : List Byte) (h : Twin u u' a lx lx') :
    Retraces u u' (tempEnd t >>= fun val => .ok (⟨f val, some val⟩, lx))
      (tempEnd t >>= fun val => .ok (⟨f val, some val⟩, lx')) :=
  Follows.bind (Follows.refl _) fun _ _ _ hval => .ok fun _ => ⟨hval ▸ rfl, a, h, fun hcomment => absurd hcomment (htype _)⟩

theorem wordType_ne_comment (w : CStr) : wordType w ≠ .comment := by
  unfold wordType
  repeat' split
  all_goals nofun

theorem collectId_twin (h : Twin u u' a lx lx') (hb : Border u u') :
    Retraces u u' (tasmLexerCollectId fuel lx) (tasmLexerCollectId fuel lx') := by
  refine Follows.bind (collectWhile_twin h (hb.held (by decide)) []) ?_
  rintro ⟨l, t⟩ ⟨l', t'⟩ - ⟨rfl, htwin⟩
  exact tempEnd_retraces wordType_ne_comment _ htwin

theorem collectPrefixed_twin {type : TokenType} (htype : type ≠ .comment) (hp : ∀ c ∈ lineRestChars, p c = false)
    (h : Twin u u' a lx lx') (hb : Border u u') (hne : 2 ≤ a.length) :
    Retraces u u' (collectPrefixed p type fuel lx) (collectPrefixed p type fuel lx') := by
  have h₁ := h.step (.inl (by rintro rfl; simp at hne))
  have h₂ := h₁.step (.inl (by
    rintro he
    have hlen := congrArg List.length he
    simp at hlen
    omega))
  refine Follows.bind (collectWhile_twin h₂ (hb.held hp) []) ?_
  rintro ⟨l, t⟩ ⟨l', t'⟩ - ⟨rfl, htwin⟩
  exact tempEnd_retraces (fun _ => htype) _ htwin

theorem collectNumber_twin (h : Twin u u' a lx lx') (hb : Border u u') :
    Retraces u u' (tasmLexerCollectNumber fuel lx) (tasmLexerCollectNumber fuel lx') := by
  have hdigit : ∀ c ∈ lineRestChars, isDigit c = false := by decide
  refine Follows.bind (collectWhile_twin h (hb.held hdigit) []) ?_
  rintro ⟨l, t⟩ ⟨l', t'⟩ - ⟨rfl, htwin⟩
  dsimp only
  generalize a.dropWhile isDigit = b at htwin
  by_cases hne : b ≠ [] ∨ Locked u u'
  · have hcur := htwin.current hne
    refine Follows.ite (by rw [hcur]) (fun _ => ?_) fun _ =>
      tempEnd_retraces (f := fun _ => .decimalNumber) (fun _ => by simp) _ htwin
    rw [hcur]
    refine Follows.bind (Follows.refl _) ?_
    rintro _ t - rfl
    refine Follows.bind (collectWhile_twin (htwin.step hne) (hb.held hdigit) t) ?_
    rintro ⟨l, t⟩ ⟨l', t'⟩ - ⟨rfl, htwin⟩
    exact tempEnd_retraces (f := fun _ => .floatNumber) (fun _ => by simp) _ htwin
  · -- at the border there is no point on either side
    have hdot : ∀ c ∈ lineRestChars, c ≠ chr '.' := by decide
    obtain ⟨rfl, hopen⟩ : b = [] ∧ ¬ Locked u u' := by simpa [not_or] using hne
    obtain ⟨hhead, hhead'⟩ := hb.heads.resolve_left hopen
    have hcur : l.currentChar ≠ chr '.' := htwin.left.current_eq htwin.rest ▸ hdot _ hhead
    have hcur' : l'.currentChar ≠ chr '.' := htwin.right.current_eq htwin.rest' ▸ hdot _ hhead'
    rw [if_neg hcur, if_neg hcur']
    exact tempEnd_retraces (f := fun _ => .decimalNumber) (fun _ => by simp) _ htwin

theorem collectOneChars_twin (h : Twin u u' a lx lx') (hne : a ≠ [] ∨ Locked u u')
    (hcomment : Locked u u' ∨ a.headD 0 ≠ chr ';' ∨ chr '\n' ∈ a) :
    Retraces u u' (lexerCollectOneChars fuel lx) (lexerCollectOneChars fuel lx') := by
  have hcur := h.current hne
  have one {type : TokenType} (htype : type ≠ .comment) (value : Option CStr) :
      Retraces u u' (.ok (⟨type, value⟩, tasmLexerAdvance lx)) (.ok (⟨type, value⟩, tasmLexerAdvance lx')) :=
    Follows.ok fun _ => ⟨rfl, _, h.step hne, fun hcomment => absurd hcomment htype⟩
  unfold lexerCollectOneChars
  rw [hcur]
  refine .ite Iff.rfl (fun _ => one (by simp) _) fun _ => .ite Iff.rfl (fun hsemi => ?_) fun _ =>
    .ite Iff.rfl (fun _ => one (by simp) _) fun _ => .ite Iff.rfl (fun _ => one (by simp) _) fun _ =>
    .ite Iff.rfl (fun _ => one (by simp) _) fun _ => .ite Iff.rfl (fun _ => one (by simp) _) fun _ =>
    .ite Iff.rfl (fun _ => one (by simp) _) fun _ => .ite Iff.rfl (fun _ => one (by simp) _) fun _ => one (by simp) _
  have hend : Locked u u' ∨ chr '\n' ∈ a := by
    rcases hcomment with hlock | hhead | hmem
    · exact .inl hlock
    · cases a with
      | cons c a => exact absurd (h.current_cons.1.symm.trans hsemi) hhead
      | nil => exact .inl (hne.resolve_left (by simp))
    · exact .inr hmem
  have hstop : (chr '\n' != chr '\n' && chr '\n' != eofChar) = false := by decide
  have hheld : HeldBy (fun c => c != chr '\n' && c != eofChar) u u' a := hend.imp_right fun hmem => .inr ⟨_, hmem, hstop⟩
  refine Follows.bind (advanceWhile_twin h hheld) fun l l' _ htwin => .ok fun _ => ⟨rfl, _, htwin, fun _ => ?_⟩
  refine hend.symm.imp_left fun hmem => ?_
  have hne' : a.dropWhile (fun c => c != chr '\n' && c != eofChar) ≠ [] := fun hnil =>
    absurd (hstop.symm.trans (List.dropWhile_eq_nil_iff.mp hnil _ hmem)) (by decide)
  -- the marker is not in the text
  have hhead := List.head_dropWhile_not _ hne'
  have hplain := h.plain _ ((List.dropWhile_suffix _).subset (List.head_mem hne'))
  rw [List.head?_eq_some_head hne']
  by_contra hn
  have hn : List.head _ hne' ≠ chr '\n' := fun heq => hn (congrArg some heq)
  simp [hn] at hhead
  exact hplain (.inr hhead)

/-- The two characters of a prefix are in the text that both have in common. -/
theorem Twin.prefix_chars (h : Twin u u' a lx lx') (hb : Border u u') (hne : a ≠ [] ∨ Locked u u') {q : Byte → Byte → Bool}
    (hq : ∀ c d, q c d = true → isDigit c = true ∧ isIdChar d = true) :
    q lx'.currentChar lx'.nextChar = q lx.currentChar lx.nextChar ∧
      (q lx.currentChar lx.nextChar = true → 2 ≤ a.length) := by
  have hcur := h.current hne
  have hstay : ∀ c, StaysAt c → isDigit c = false ∧ isIdChar c = false := by decide
  have hrest : ∀ c ∈ lineRestChars, isIdChar c = false := by decide
  have hno {c d : Byte} (hd : isIdChar d = false) : q c d = false := by
    cases hqd : q c d with
    | false => rfl
    | true => exact absurd (hd.symm.trans (hq c d hqd).2) (by decide)
  match a, h with
  | c :: d :: a, h =>
    have hnext : lx'.nextChar = lx.nextChar := (h.right.next_eq h.rest').trans (h.left.next_eq h.rest).symm
    rw [hcur, hnext]
    exact ⟨rfl, fun _ => by simp⟩
  | [c], h =>
    have hhead : isIdChar (u.headD 0) = false ∧ isIdChar (u'.headD 0) = false := by
      rcases hb.heads with ⟨e, v, v', rfl, rfl, he⟩ | ⟨hl, hr⟩
      · exact ⟨(hstay e he).2, (hstay e he).2⟩
      · exact ⟨hrest _ hl, hrest _ hr⟩
    have hnext : lx.nextChar = u.headD 0 := by
      rw [h.left.next_eq h.rest]
      cases u <;> rfl
    have hnext' : lx'.nextChar = u'.headD 0 := by
      rw [h.right.next_eq h.rest']
      cases u' <;> rfl
    rw [hnext, hnext', hno hhead.1, hno hhead.2]
    exact ⟨rfl, by simp⟩
  | [], h =>
    obtain ⟨e, v, v', hu, -, he⟩ := hne.resolve_left (by simp)
    have hstays : lx.currentChar = e := by rw [h.left.current_eq h.rest, hu]; rfl
    have hnone (d : Byte) : q e d = false := by
      cases hqd : q e d with
      | false => rfl
      | true => exact absurd ((hstay e he).1.symm.trans (hq e d hqd).1) (by decide)
    rw [hcur, hstays, hnone, hnone]
    exact ⟨rfl, by simp⟩

theorem isbinprefix_chars (c d : Byte) (h : isbinprefix c d = true) : isDigit c = true ∧ isIdChar d = true := by
  simp only [ isbinprefix, Bool.and_eq_true, Bool.or_eq_true, beq_iff_eq] at h
  rcases h with ⟨rfl, rfl | rfl⟩ <;> decide

theorem ishexprefix_chars (c d : Byte) (h : ishexprefix c d = true) : isDigit c = true ∧ isIdChar d = true := by
  simp only [ ishexprefix, Bool.and_eq_true, Bool.or_eq_true, beq_iff_eq] at h
  rcases h with ⟨rfl, rfl | rfl⟩ <;> decide

theorem collectToken_twin (h : Twin u u' a lx lx') (hb : Border u u') (hne : a ≠ [] ∨ Locked u u')
    (hcomment : Locked u u' ∨ a.headD 0 ≠ chr ';' ∨ chr '\n' ∈ a) :
    Retraces u u' (collectToken fuel lx) (collectToken fuel lx') := by
  have hbin := h.prefix_chars hb hne isbinprefix_chars
  have hhex := h.prefix_chars hb hne ishexprefix_chars
  unfold collectToken
  rw [h.current hne] at hbin hhex ⊢
  rw [hbin.1, hhex.1]
  refine .ite Iff.rfl (fun _ => collectId_twin h hb) fun _ => .ite Iff.rfl (fun hp => ?_) fun _ => .ite Iff.rfl (fun hp => ?_)
    fun _ => .ite Iff.rfl (fun _ => collectNumber_twin h hb) fun _ => collectOneChars_twin h hne hcomment
  · exact collectPrefixed_twin (by simp) (by decide) h hb (hbin.2 hp)
  · exact collectPrefixed_twin (by simp) (by decide) h hb (hhex.2 hp)

theorem collectChar_twin (h : Twin u u' a lx lx') (hne : 2 ≤ a.length ∨ Locked u u') :
    Matched u u' (tasmLexerCollectChar lx) (tasmLexerCollectChar lx') := by
  have h₁ := h.step (hne.imp_left fun hlen => by rintro rfl; simp at hlen)
  have hne₁ : a.tail ≠ [] ∨ Locked u u' := hne.imp_left fun hlen he => by
    have hlen₁ := congrArg List.length he
    simp at hlen₁
    omega
  have hcur := h.current (hne.imp_left fun hlen => by rintro rfl; simp at hlen)
  unfold tasmLexerCollectChar
  dsimp only
  rw [h₁.current hne₁, hcur]
  split
  · exact ⟨rfl, _, h₁.step hne₁, by simp⟩
  · exact ⟨rfl, _, h₁, by simp⟩

end Collectors

end TileVm
