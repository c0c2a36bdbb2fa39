/-
Calls of two lexers over texts that agree up to a border. A call that does not reach the border, or
lexers that stay there, return the same token. A string is the one token whose scan looks ahead: its
room is the length of the line, so that it has to stop in front of the border.
-/
import TileVm.Tasm.LexerTwins

namespace TileVm

open Except (Follows)

/-! ## The lines around the border -/

section Lines

variable {u u' a : List Byte}

/-- The line of a text that begins with `a` ends in it, or it is the line behind it that ends. -/
theorem lineLength_append (a u : List Byte) :
    lineLength (a ++ u) = if lineLength a < a.length then lineLength a else lineLength u + a.length :=
  List.findIdx_append ..

/-- With `a` in front the lines are of the same length, or both go on behind it. -/
theorem lineLength_common (a u u' : List Byte) : lineLength (a ++ u') = lineLength (a ++ u) ∨
    a.length ≤ lineLength (a ++ u) ∧ a.length ≤ lineLength (a ++ u') := by
  rw [lineLength_append, lineLength_append]
  split
  · exact .inl rfl
  · exact .inr ⟨by omega, by omega⟩

theorem strlen_append (ha : ∀ c ∈ a, ¬ StaysAt c) (u : List Byte) : strlen (a ++ u) = a.length + strlen u := by
  have hpos : ∀ c ∈ a, decide (c ≠ 0) = true := fun c hc => decide_eq_true fun h => ha c hc (.inl h)
  unfold strlen
  rw [List.takeWhile_append_of_pos hpos, List.length_append]

theorem strlen_le_length (cs : List Byte) : strlen cs ≤ cs.length := (List.takeWhile_prefix _).length_le

theorem strlen_cons (c : Byte) (cs : List Byte) : strlen (c :: cs) = if c = 0 then 0 else strlen cs + 1 := by
  unfold strlen
  by_cases hc : c = 0
  · rw [if_pos hc, List.takeWhile_cons_of_neg (by simpa using hc)]
    rfl
  · rw [if_neg hc, List.takeWhile_cons_of_pos (by simpa using hc)]
    rfl

theorem strlen_drop {src : List Byte} : ∀ {n : Nat}, n ≤ strlen src → strlen (src.drop n) + n = strlen src := by
  induction src with
  | nil =>
    intro n hn
    obtain rfl : n = 0 := Nat.le_zero.mp hn
    rfl
  | cons c src ih =>
    intro n hn
    cases n with
    | zero => rfl
    | succ n =>
      rw [strlen_cons] at hn ⊢
      split at hn
      · exact absurd hn (Nat.not_succ_le_zero n)
      · rename_i hc
        rw [if_neg hc, List.drop_succ_cons, ← ih (Nat.le_of_succ_le_succ hn)]
        rfl

theorem OnText.strlen_remaining {lx : TasmLexer} (h : OnText lx) :
    strlen (remaining lx) + lx.cursor = lx.sourceCodeSize := by
  have hcursor : lx.cursor ≤ strlen lx.sourceCode := by
    have hle := h.cursor
    rwa [h.size] at hle
  rw [h.size]
  exact strlen_drop hcursor

namespace Border

theorem symm (h : Border u u') : Border u' u where
  heads := by
    rcases h.heads with ⟨e, v, v', hu, hu', he⟩ | ⟨hl, hr⟩
    · exact .inl ⟨e, v', v, hu', hu, he⟩
    · exact .inr ⟨hr, hl⟩
  ends := h.ends.symm
  last := h.last.symm

theorem strlen_zero (h : Border u u') : strlen u = 0 ↔ strlen u' = 0 := by
  have hrest : ∀ c ∈ lineRestChars, c ≠ 0 := by decide
  have hpos (cs : List Byte) (hcs : cs.headD 0 ∈ lineRestChars) : strlen cs ≠ 0 := by
    cases cs with
    | nil => exact absurd rfl (hrest _ hcs)
    | cons c cs =>
      rw [strlen_cons, if_neg (hrest c hcs)]
      exact Nat.succ_ne_zero _
  rcases h.heads with ⟨e, v, v', rfl, rfl, -⟩ | ⟨hl, hr⟩
  · rw [strlen_cons, strlen_cons]
    split <;> simp
  · exact iff_of_false (hpos _ hl) (hpos _ hr)

theorem ends_append (h : Border u u') (ha : ∀ c ∈ a, ¬ StaysAt c) :
    lineLength (a ++ u) < strlen (a ++ u) ↔ lineLength (a ++ u') < strlen (a ++ u') := by
  have hends := h.ends
  rw [lineLength_append, lineLength_append, strlen_append ha, strlen_append ha]
  split <;> omega

theorem last_append (h : Border u u') (ha : ∀ c ∈ a, ¬ StaysAt c) :
    strlen (a ++ u) ≤ lineLength (a ++ u) + 1 ↔ strlen (a ++ u') ≤ lineLength (a ++ u') + 1 := by
  have hlast := h.last
  have hzero := h.strlen_zero
  rw [lineLength_append, lineLength_append, strlen_append ha, strlen_append ha]
  split <;> omega

/-- The lines from here on are of the same length, or both go on past the border and the lexers do not stay there. -/
theorem lengths (h : Border u u') (hends : lineLength (a ++ u) < strlen (a ++ u)) (ha : ∀ c ∈ a, ¬ StaysAt c) :
    lineLength (a ++ u') = lineLength (a ++ u) ∨
      ¬ Locked u u' ∧ a.length ≤ lineLength (a ++ u) ∧ a.length ≤ lineLength (a ++ u') := by
  rcases lineLength_common a u u' with heq | ⟨hle, hle'⟩
  · exact .inl heq
  by_cases hlock : Locked u u'
  · obtain ⟨e, v, v', rfl, rfl, he⟩ := hlock
    rw [lineLength_append, strlen_append ha] at hends
    rw [lineLength_append, lineLength_append]
    rcases he with rfl | rfl
    · have hzero : strlen (0 :: v) = 0 := rfl
      have hlt : lineLength a < a.length := by
        by_contra hge
        rw [if_neg hge] at hends
        omega
      exact .inl (by rw [if_pos hlt, if_pos hlt])
    · exact .inl rfl
  · exact .inr ⟨hlock, hle, hle'⟩

end Border

end Lines

/-! ## Literals -/

/-- The scan of a string that has room for `room` more bytes stops in front of one of these characters. -/
def literalStops : Nat → List Byte → Bool
  | _, [] => false
  | 0, _ :: _ => true
  | _ + 1, [c] => c == chr '"'
  | room + 1, c :: e :: cs =>
    if c = chr '"' then true
    else if c = chr '\\' then literalStops (if (unescape e).isSome then room else room + 1) cs
    else literalStops room (e :: cs)

theorem literalStops_ne_nil {room : Nat} {cs : List Byte} (h : literalStops room cs = true) : cs ≠ [] := by
  rintro rfl
  cases room <;> cases h

/-- With room for all of them it depends on the characters only. -/
theorem literalStops_congr : ∀ {room room' : Nat} {cs : List Byte}, cs.length ≤ room → cs.length ≤ room' →
    literalStops room cs = literalStops room' cs
  | 0, 0, _, _, _ => rfl
  | 0, _ + 1, [], _, _ => rfl
  | _ + 1, 0, [], _, _ => rfl
  | _ + 1, _ + 1, [], _, _ => rfl
  | _ + 1, _ + 1, [_], _, _ => rfl
  | room + 1, room' + 1, c :: e :: cs, h, h' => by
    simp only [List.length_cons] at h h'
    rw [literalStops, literalStops]
    have hchar := @literalStops_congr room room' (e :: cs) (by simp only [List.length_cons]; omega)
      (by simp only [List.length_cons]; omega)
    have hescape := @literalStops_congr (if (unescape e).isSome then room else room + 1)
      (if (unescape e).isSome then room' else room' + 1) cs (by split <;> omega) (by split <;> omega)
    rw [hchar, hescape]

/-- The scans of a string that have `len` bytes so far and the text `b` in common from here on: they stop in it, or the
lexers stay at the border. -/
def ScansOn (u u' : List Byte) (lim lim' len : Nat) (b : List Byte) : Prop :=
  Locked u u' ∧ lim' = lim ∨
    literalStops (lim + 1 - len) b = true ∧ (lim' = lim ∨ len + b.length ≤ lim ∧ len + b.length ≤ lim')

namespace ScansOn

variable {u u' b : List Byte} {lim lim' len : Nat} {c e : Byte}

theorem ne (h : ScansOn u u' lim lim' len b) : b ≠ [] ∨ Locked u u' := by
  rcases h with ⟨hlock, -⟩ | ⟨hstops, -⟩
  · exact .inr hlock
  · exact .inl (literalStops_ne_nil hstops)

theorem full (h : ScansOn u u' lim lim' len b) : lim' < len ↔ lim < len := by
  rcases h with ⟨-, rfl⟩ | ⟨-, rfl | hlen⟩
  · rfl
  · rfl
  · omega

/-- Behind a character that is no quote and no backslash. -/
theorem char (h : ScansOn u u' lim lim' len b) (hlim : len ≤ lim) (hb : ∀ c ∈ b.head?, c ≠ chr '"' ∧ c ≠ chr '\\') :
    ScansOn u u' lim lim' (len + 1) b.tail := by
  refine h.imp_right ?_
  rintro ⟨hstops, hlims⟩
  obtain ⟨room, hroom⟩ : ∃ room, lim + 1 - len = room + 1 := ⟨lim - len, by omega⟩
  rw [hroom] at hstops
  have hroom' : lim + 1 - (len + 1) = room := by omega
  match b, hb with
  | [], _ => cases hstops
  | [c], hb =>
    obtain ⟨hquote, -⟩ := hb c rfl
    rw [literalStops] at hstops
    exact absurd (beq_iff_eq.mp hstops) hquote
  | c :: e :: cs, hb =>
    obtain ⟨hquote, hback⟩ := hb c rfl
    rw [literalStops, if_neg hquote, if_neg hback] at hstops
    rw [hroom']
    refine ⟨hstops, hlims.imp_right fun hlen => ?_⟩
    simp only [List.length_cons, List.tail_cons] at hlen ⊢
    omega

/-- Behind an escape sequence. -/
theorem escape (h : ScansOn u u' lim lim' len b) (hlim : len ≤ lim) (hb : b.head? = some (chr '\\')) :
    (b.tail ≠ [] ∨ Locked u u') ∧ ∀ known : Bool, (∀ e ∈ b.tail.head?, (unescape e).isSome = known) →
      ScansOn u u' lim lim' (if known then len + 1 else len) b.tail.tail := by
  rcases h with hlock | ⟨hstops, hlims⟩
  · exact ⟨.inr hlock.1, fun _ _ => .inl hlock⟩
  obtain ⟨room, hroom⟩ : ∃ room, lim + 1 - len = room + 1 := ⟨lim - len, by omega⟩
  rw [hroom] at hstops
  match b, hb with
  | [_], rfl => cases hstops
  | _ :: e :: cs, rfl =>
    rw [literalStops, if_neg (by decide), if_pos rfl] at hstops
    refine ⟨.inl (by simp), fun known hknown => .inr ?_⟩
    obtain rfl : (unescape e).isSome = known := hknown e rfl
    have hroom' : (lim + 1 - if (unescape e).isSome then len + 1 else len) = if (unescape e).isSome then room else room + 1 := by
      split <;> omega
    rw [hroom']
    refine ⟨hstops, hlims.imp_right fun hlen => ?_⟩
    simp only [List.length_cons, List.tail_cons] at hlen ⊢
    split <;> omega

end ScansOn

/-- The states of the two scans. -/
def StrTwin (u u' : List Byte) (lim lim' : Nat) (s s' : TasmLexer × List Byte) : Prop :=
  s'.2 = s.2 ∧ ∃ b, Twin u u' b s.1 s'.1 ∧ ScansOn u u' lim lim' s.2.length b

section Strings

variable {u u' a : List Byte} {lx lx' : TasmLexer} {lim lim' fuel : Nat} {s s' : TasmLexer × List Byte}

theorem StrTwin.cond (h : StrTwin u u' lim lim' s s') :
    (s'.1.currentChar != chr '"' && !decide (lim' < s'.2.length)) = (s.1.currentChar != chr '"' && !decide (lim < s.2.length)) := by
  obtain ⟨htext, b, htwin, hscan⟩ := h
  rw [htext, htwin.current hscan.ne, decide_eq_decide.mpr hscan.full]

/-- The first character of the text in common is the current one. -/
theorem Twin.head (h : Twin u u' a lx lx') : ∀ c ∈ a.head?, lx.currentChar = c := by
  intro c hc
  cases a with
  | nil => cases hc
  | cons d a =>
    cases hc
    exact h.current_cons.1

theorem tempPut_twin {b t : List Byte} {c : Byte} (h : Twin u u' b lx lx')
    (hscan : ScansOn u u' lim lim' (t.length + 1) b) :
    Follows False (fun _ => True) (StrTwin u u' lim lim') ((tempPut t c).map fun text => (lx, text))
      ((tempPut t c).map fun text => (lx', text)) := by
  refine Follows.bind (Follows.refl _) ?_
  rintro _ text htext rfl
  refine .ok fun _ => ⟨rfl, b, h, ?_⟩
  rw [(tempPut_ok.mp htext).2]
  simpa using hscan

theorem strBody_twin (h : StrTwin u u' lim lim' s s') (hquote : s.1.currentChar ≠ chr '"') (hlim : s.2.length ≤ lim) :
    Follows False (fun _ => True) (StrTwin u u' lim lim') (strBody s) (strBody s') := by
  obtain ⟨lx, t⟩ := s
  obtain ⟨lx', t'⟩ := s'
  obtain ⟨rfl, b, htwin, hscan⟩ := h
  have hcur := htwin.current hscan.ne
  unfold strBody
  dsimp only at hcur hquote hlim htwin hscan ⊢
  rw [hcur]
  refine .ite Iff.rfl (fun hback => ?_) fun hback => ?_
  · have hhead : b.head? = some (chr '\\') := by
      cases b with
      | nil =>
        obtain ⟨e, v, v', hu, -, he⟩ := hscan.ne.resolve_left (by simp)
        have hstay : e = chr '\\' := by
          rw [← hback, htwin.left.current_eq htwin.rest, hu]
          rfl
        rw [hstay] at he
        exact absurd he (by decide)
      | cons c b => exact congrArg some (htwin.current_cons.1.symm.trans hback)
    obtain ⟨hne, hgoes⟩ := hscan.escape hlim hhead
    have htwin₁ := htwin.step hscan.ne
    have hknown (known : Bool) (hk : (unescape (tasmLexerAdvance lx).currentChar).isSome = known) :
        ∀ e ∈ b.tail.head?, (unescape e).isSome = known := fun e he => htwin₁.head e he ▸ hk
    rw [htwin₁.current hne]
    cases hesc : unescape (tasmLexerAdvance lx).currentChar with
    | some c => exact tempPut_twin (htwin₁.step hne) (hgoes true (hknown true (by rw [hesc]; rfl)))
    | none =>
      exact .ok fun _ => ⟨rfl, _, (htwin₁.report _ _).step hne, hgoes false (hknown false (by rw [hesc]; rfl))⟩
  · refine tempPut_twin (htwin.step hscan.ne) (hscan.char hlim fun c hc => ?_)
    rw [← htwin.head c hc]
    exact ⟨hquote, hback⟩

/-- The counter is reset unless it is at the end. -/
theorem peekReset_zero (lx : TasmLexer) (k : Nat) :
    (tasmLexerPeekReset { lx with peek := k + 1 }).peek = 0 ↔ k + 1 + lx.cursor < lx.sourceCodeSize := by
  unfold tasmLexerPeekReset tasmLexerPeekUpgraded
  dsimp only
  split
  · simp only [Nat.succ_ne_zero, false_iff]
    omega
  · simp only [if_true, true_iff]
    omega

/-- The scans of a string return the same token, unless one goes on past the border and does not stay there. -/
theorem collectStr_twin (h : Twin u u' a lx lx') (hb : Border u u')
    (hstops : Locked u u' ∨ literalStops (lineLength (remaining lx) + 1) a = true) {r : TasmToken × TasmLexer}
    (hr : tasmLexerCollectStr fuel lx = .ok r) : ∃ fuel' r', tasmLexerCollectStr fuel' lx' = .ok r' ∧ Matched u u' r r' := by
  obtain ⟨⟨l, lim⟩, hline, hr⟩ := Except.bind_ok hr
  obtain ⟨hk, hpeek, hsize⟩ := lineEndLoop_onText h.left hline
  cases hk
  -- the line ends on the other side too
  have hends : lineLength (a ++ u) < strlen (a ++ u) := by
    have hlen := h.left.strlen_remaining
    rw [h.rest] at hlen hsize
    omega
  have hends' := (hb.ends_append h.plain).mp hends
  have hsize' : lineLength (remaining lx') + lx'.cursor < lx'.sourceCodeSize := by
    have hlen := h.right.strlen_remaining
    rw [h.rest'] at hlen ⊢
    omega
  have hlength' : lineLength (remaining lx') < (remaining lx').length := by
    rw [h.rest']
    exact Nat.lt_of_lt_of_le hends' (strlen_le_length _)
  -- and the counter is reset on both
  have hreset : ∃ k k', tasmLexerPeekReset { lx with peek := lineLength (remaining lx) + 1 } = { lx with peek := k } ∧
      tasmLexerPeekReset { lx' with peek := lineLength (remaining lx') + 1 } = { lx' with peek := k' } ∧
      Twin u u' a { lx with peek := k } { lx' with peek := k' } := by
    obtain ⟨k, hk, hl⟩ := peekReset_onText h.left (lineLength (remaining lx) + 1)
    obtain ⟨k', hk', hr⟩ := peekReset_onText h.right (lineLength (remaining lx') + 1)
    refine ⟨k, k', hk, hk', h.setPeek hl hr ?_⟩
    have hlast := hb.last_append h.plain
    have hlen := h.left.strlen_remaining
    have hlen' := h.right.strlen_remaining
    have hzero := peekReset_zero lx (lineLength (remaining lx))
    have hzero' := peekReset_zero lx' (lineLength (remaining lx'))
    rw [hk, h.rest] at hzero
    rw [hk', h.rest'] at hzero'
    rw [h.rest] at hlen
    rw [h.rest'] at hlen'
    dsimp only at hzero hzero'
    omega
  obtain ⟨k, k', hk, hk', htwin⟩ := hreset
  have hscan : ScansOn u u' (lineLength (remaining lx)) (lineLength (remaining lx')) 0 a := by
    have hlengths := hb.lengths hends h.plain
    rw [← h.rest, ← h.rest'] at hlengths
    rcases hlengths with heq | ⟨hopen, hle, hle'⟩
    · exact hstops.imp (fun hlock => ⟨hlock, heq⟩) fun hstops => ⟨hstops, .inl heq⟩
    · exact .inr ⟨hstops.resolve_left hopen, .inr ⟨by omega, by omega⟩⟩
  dsimp only at hr
  rw [hk] at hr
  obtain ⟨s, hloop, hr⟩ := Except.bind_ok hr
  have hfollows := Follows.loop (I := StrTwin u u' (lineLength (remaining lx)) (lineLength (remaining lx')))
    (fun _ _ hs => hs.cond) (fun s s' hs hc => strBody_twin hs (strCond_true.mp hc).1 (strCond_true.mp hc).2) fuel
    ({ lx with peek := k }, []) ({ lx' with peek := k' }, []) ⟨rfl, a, htwin, hscan⟩
  obtain ⟨s', hloop', ⟨htext, b, htwin', hscan'⟩, -⟩ := hfollows.result s hloop trivial
  have hcur := htwin'.current hscan'.ne
  obtain ⟨val, hval, hr⟩ := Except.bind_ok hr
  cases hr
  -- with fuel for both loops
  let fuel' := max fuel (lineLength (remaining lx'))
  have hline' := lineEndLoop_ends (h.peek.mp hpeek) hsize' hlength' (Nat.le_max_right fuel _)
  have hloop' := Loop.run_mono (Nat.le_max_left fuel (lineLength (remaining lx'))) hloop' (by simp)
  refine ⟨fuel', (⟨.string, some val⟩, if s'.1.currentChar ≠ chr '"' then s'.1.report .missingQuota else s'.1), ?_, rfl, b, ?_, by simp⟩
  · unfold tasmLexerCollectStr
    rw [Except.bind_of_ok hline']
    dsimp only
    rw [hk', Except.bind_of_ok hloop']
    rw [htext, Except.bind_of_ok hval]
    rfl
  · rw [hcur]
    split
    · exact htwin'.report _ _
    · exact htwin'

end Strings

/-! ## Calls -/

/-- The next call does not reach the end of the text `a`: a literal stops before it, and what stands behind the blanks is
no comment, or one whose line ends in it. -/
def StaysIn (lx : TasmLexer) (a : List Byte) : Prop :=
  if inString lx then literalStops (lineLength (remaining lx) + 1) a = true
  else if inChar lx then 2 ≤ a.length
  else a.dropWhile isBlank ≠ [] ∧ ((a.dropWhile isBlank).headD 0 = chr ';' → chr '\n' ∈ a.dropWhile isBlank)

section Calls

variable {u u' a : List Byte} {lx lx' lx₁ : TasmLexer} {t : TasmToken}

theorem StaysIn.ne_nil (h : StaysIn lx a) : a ≠ [] := by
  unfold StaysIn at h
  rintro rfl
  split_ifs at h
  · exact literalStops_ne_nil h rfl
  · exact absurd h (by simp)
  · exact h.1 rfl

theorem Twin.inside (h : Twin u u' a lx lx') (hin : StaysIn lx a) : StaysIn lx' a := by
  obtain ⟨hstring, hchar⟩ := h.mode (.inl hin.ne_nil)
  unfold StaysIn at hin ⊢
  rw [hstring, hchar]
  split_ifs at hin ⊢
  · rw [h.rest] at hin
    rw [h.rest']
    rcases lineLength_common a u u' with heq | ⟨hle, hle'⟩
    · rw [heq]
      exact hin
    · rw [literalStops_congr (Nat.le_succ_of_le hle') (Nat.le_succ_of_le hle)]
      exact hin
  · exact hin
  · exact hin

/-- As long as the border is not reached, or the lexers stay there, they return the same tokens. -/
theorem LexCall.twin (hcall : LexCall lx t lx₁) (h : Twin u u' a lx lx') (hb : Border u u')
    (hin : Locked u u' ∨ StaysIn lx a) : ∃ lx₁', LexCall lx' t lx₁' ∧
      ∃ b, Twin u u' b lx₁ lx₁' ∧ (t.type = .comment → b.head? = some (chr '\n') ∨ Locked u u') := by
  have hne : a ≠ [] ∨ Locked u u' := hin.symm.imp_left StaysIn.ne_nil
  obtain ⟨hstring, hchar⟩ := h.mode hne
  obtain ⟨fuel, hr⟩ := hcall
  unfold tasmLexerGetNextToken at hr
  unfold StaysIn at hin
  unfold LexCall tasmLexerGetNextToken
  rw [hstring, hchar]
  split_ifs at hr hin ⊢
  · obtain ⟨fuel', ⟨t', lx₁'⟩, hr', rfl, hmatched⟩ := collectStr_twin h hb hin hr
    exact ⟨lx₁', ⟨fuel', hr'⟩, hmatched⟩
  · have hmatched := collectChar_twin h hin.symm
    rw [Except.ok.inj hr] at hmatched
    obtain ⟨htoken, hmatched⟩ := hmatched
    exact ⟨(tasmLexerCollectChar lx').2, ⟨fuel, congrArg Except.ok (Prod.ext htoken rfl)⟩, hmatched⟩
  · have hheld : HeldBy isBlank u u' a := by
      refine hin.imp_right fun hin => .inr ?_
      simpa [List.dropWhile_eq_nil_iff] using hin.1
    have hcomment : Locked u u' ∨ (a.dropWhile isBlank).headD 0 ≠ chr ';' ∨ chr '\n' ∈ a.dropWhile isBlank :=
      hin.imp_right fun hin => Decidable.imp_iff_not_or.mp hin.2
    have hretraces : Retraces u u' (tasmLexerSkipWhitespace fuel lx >>= collectToken fuel)
        (tasmLexerSkipWhitespace fuel lx' >>= collectToken fuel) :=
      Follows.bind (advanceWhile_twin h hheld) fun l l' _ htwin =>
        collectToken_twin htwin hb (hin.symm.imp_left (·.1)) hcomment
    obtain ⟨⟨t', lx₁'⟩, hr', rfl, hmatched⟩ := hretraces.result _ hr trivial
    exact ⟨lx₁', ⟨fuel, hr'⟩, hmatched⟩

/-- Where the lexers stay at the border, they read the same tokens up to the end. -/
theorem LexTokens.twin {ts : List TasmToken} (hts : LexTokens lx ts) (h : Twin u u' a lx lx') (hb : Border u u')
    (hlock : Locked u u') : LexTokens lx' ts := by
  induction hts generalizing a lx' with
  | eof call =>
    obtain ⟨lx₁', call', -⟩ := call.twin h hb (.inl hlock)
    exact .eof call'
  | cons call ne _ ih =>
    obtain ⟨lx₁', call', b, htwin, -⟩ := call.twin h hb (.inl hlock)
    exact .cons call' ne (ih htwin)

end Calls

end TileVm
