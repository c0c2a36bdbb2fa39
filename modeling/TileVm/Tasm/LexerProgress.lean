/-
Progress of the lexer. A call returns exactly when its token fits into `temp_val` and, for a
string, the peek counter is 0; every call that returns another token than `TOKEN_EOF` has taken at
least one character.
-/
import Mathlib.Data.List.TakeWhile
import Mathlib.Logic.Relation
import TileVm.Lib.Relate
import TileVm.Tasm.LexerSpec

namespace TileVm

open Relation (ReflTransGen)

/-! ## Token texts -/

/-- The text of a number: digits, and a point with more digits after it. -/
def numberText (cs : List Byte) : List Byte :=
  match cs.dropWhile isDigit with
  | [] => cs.takeWhile isDigit
  | c :: r =>
    if c = chr '.' then (cs.takeWhile isDigit ++ [c]) ++ r.takeWhile isDigit else cs.takeWhile isDigit

/-- The text that the token at the head of `cs` copies through `temp_val`. -/
def tokenText (cs : List Byte) : List Byte :=
  match cs with
  | c :: d :: r =>
    if isAlpha c || c == chr '_' then cs.takeWhile isIdChar
    else if isbinprefix c d then r.takeWhile isBinDigit
    else if ishexprefix c d then r.takeWhile isXDigit
    else if isDigit c then numberText cs
    else []
  | _ => []

/-- The next call returns: a string scan starts with the peek counter at 0, and the text of the
token fits into `temp_val` with its NUL. -/
def Scannable (lx : TasmLexer) : Prop :=
  if inString lx then lx.peek = 0 ∧ litLength (lineLength (remaining lx)) (remaining lx) 0 ≤ 127
  else if inChar lx then True
  else (tokenText ((remaining lx).dropWhile isBlank)).length ≤ 127

instance (lx : TasmLexer) : Decidable (Scannable lx) :=
  inferInstanceAs (Decidable (if inString lx then _ else if inChar lx then True else _))

/-- Fuel that is enough for every loop of one call. -/
def lexFuel (text : List Byte) : Nat := 2 * text.length + 4

section Collectors

variable {text : List Byte} {lx : TasmLexer} {fuel : Nat} {r : TasmToken × TasmLexer}

/-- What a collector leaves that has read the text `w`. -/
structure Collected (text : List Byte) (lx : TasmLexer) (w : List Byte) (r : TasmToken × TasmLexer) : Prop where
  inv : LexInv text r.2
  fits : w.length ≤ 127
  moves : r.1.type ≠ .eof → (remaining r.2).length < (remaining lx).length
  ends : r.1.type = .eof → r.1 = .eof ∧ r.2.currentChar = eofChar
  idText : r.1.type = .id → ∃ v, r.1.value = some v ∧ ∀ b ∈ v, isIdChar b = true

theorem LexInv.remaining_two (h : LexInv text lx) : ∃ cs, remaining lx = lx.currentChar :: lx.nextChar :: cs := by
  have hlen := h.remaining_length
  obtain ⟨c, l, hc⟩ : ∃ c l, remaining lx = c :: l := List.exists_cons_of_length_pos (by omega)
  rw [hc] at hlen
  obtain ⟨d, l, rfl⟩ : ∃ d l', l = d :: l' := List.exists_cons_of_length_pos (by simp at hlen; omega)
  have h0 := LexInv.charAt_add lx 0
  have h1 := LexInv.charAt_add lx 1
  rw [hc] at h0 h1
  rw [hc, h.current, h.next, h1]
  exact ⟨l, by rw [show lx.charAt lx.cursor = c from h0]; rfl⟩

theorem LexInv.remaining_le (h : LexInv text lx) : (remaining lx).length ≤ text.length + 2 := by
  rw [h.remaining_length]; omega

theorem dropWhile_shorter {p : Byte → Bool} {c : Byte} {cs : List Byte} (h : p c = true) :
    ((c :: cs).dropWhile p).length < (c :: cs).length := by
  rw [List.dropWhile_cons_of_pos h]
  exact Nat.lt_succ_of_le (List.length_dropWhile_le p cs)

theorem wordType_ne_eof (w : CStr) : wordType w ≠ .eof := by
  unfold wordType
  repeat' split
  all_goals nofun

theorem collectId_spec (h : LexInv text lx) (hc : isIdChar lx.currentChar = true)
    (hr : tasmLexerCollectId fuel lx = .ok r) : Collected text lx ((remaining lx).takeWhile isIdChar) r := by
  obtain ⟨⟨lx1, t⟩, h1, hr⟩ := Except.bind_ok hr
  obtain ⟨hinv, -, hrem, rfl⟩ := collectWhile_spec (by decide) h h1
  obtain ⟨val, hval, hr⟩ := Except.bind_ok hr
  obtain ⟨hlen, rfl⟩ := tempEnd_ok.1 hval
  cases hr
  obtain ⟨cs, hcs⟩ := h.remaining_head
  refine ⟨hinv, Nat.le_of_lt_succ hlen, fun _ => ?_, fun he => absurd he (wordType_ne_eof _), fun _ => ⟨_, rfl, ?_⟩⟩
  · show (remaining lx1).length < _
    rw [show remaining lx1 = _ from hrem, hcs]
    exact dropWhile_shorter hc
  · exact fun b hb => List.mem_takeWhile_imp hb

theorem collectId_total (h : LexInv text lx) (hlen : ((remaining lx).takeWhile isIdChar).length ≤ 127) :
    ∃ r, tasmLexerCollectId (lexFuel text) lx = .ok r := by
  have hfuel : (remaining lx).length ≤ lexFuel text := by have := h.remaining_le; unfold lexFuel; omega
  have hp : isIdChar eofChar = false := by decide
  obtain ⟨lx', hs, -⟩ := collectWhile_returns hp h [] (by simpa using Nat.le_succ_of_le hlen) hfuel
  unfold tasmLexerCollectId
  rw [Except.bind_of_ok hs]
  dsimp only
  rw [Except.bind_of_ok (tempEnd_ok.2 ⟨by rw [List.nil_append]; exact Nat.lt_succ_of_le hlen, rfl⟩)]
  exact ⟨_, rfl⟩

/-- Two characters further. -/
theorem LexInv.advance_two (h : LexInv text lx) {cs : List Byte}
    (hrem : remaining lx = lx.currentChar :: lx.nextChar :: cs) (hc : lx.currentChar ≠ eofChar)
    (hn : lx.nextChar ≠ eofChar) :
    LexInv text (tasmLexerAdvance (tasmLexerAdvance lx)) ∧ remaining (tasmLexerAdvance (tasmLexerAdvance lx)) = cs := by
  obtain ⟨hrem1, h1, -, -, hcur⟩ := h.advance_cons hc
  obtain ⟨hrem2, h2, -, -, -⟩ := h1.advance_cons (hcur ▸ hn)
  rw [hrem1, hrem2, hcur] at hrem
  simp only [List.cons.injEq, true_and] at hrem
  exact ⟨h2, hrem⟩

section Prefixed

variable {p : Byte → Bool} {type : TokenType} {cs : List Byte}

theorem collectPrefixed_spec (hr : collectPrefixed p type fuel lx = .ok r) (hp : p eofChar = false)
    (hne : type ≠ .eof) (hid : type ≠ .id) (h : LexInv text lx)
    (hrem : remaining lx = lx.currentChar :: lx.nextChar :: cs) (hc : lx.currentChar ≠ eofChar)
    (hn : lx.nextChar ≠ eofChar) : Collected text lx (cs.takeWhile p) r := by
  obtain ⟨h2, hrem2⟩ := h.advance_two hrem hc hn
  obtain ⟨⟨lx1, t⟩, h1, hr⟩ := Except.bind_ok hr
  obtain ⟨hinv, -, hrem1, rfl⟩ := collectWhile_spec hp h2 h1
  obtain ⟨val, hval, hr⟩ := Except.bind_ok hr
  obtain ⟨hlen, rfl⟩ := tempEnd_ok.1 hval
  cases hr
  rw [hrem2] at hrem1 hlen
  refine ⟨hinv, Nat.le_of_lt_succ hlen, fun _ => ?_, fun he => absurd he hne, fun he => absurd he hid⟩
  show (remaining lx1).length < _
  rw [hrem1, hrem]
  have := List.length_dropWhile_le p cs
  simp only [List.length_cons]
  omega

theorem collectPrefixed_total (hp : p eofChar = false) (h : LexInv text lx)
    (hrem : remaining lx = lx.currentChar :: lx.nextChar :: cs) (hc : lx.currentChar ≠ eofChar)
    (hn : lx.nextChar ≠ eofChar) (hlen : (cs.takeWhile p).length ≤ 127) :
    ∃ r, collectPrefixed p type (lexFuel text) lx = .ok r := by
  obtain ⟨h2, hrem2⟩ := h.advance_two hrem hc hn
  have hfuel : (remaining (tasmLexerAdvance (tasmLexerAdvance lx))).length ≤ lexFuel text := by
    have := h2.remaining_le; unfold lexFuel; omega
  obtain ⟨lx', hs, -⟩ := collectWhile_returns hp h2 [] (by
    rw [hrem2]; simpa using Nat.le_succ_of_le hlen) hfuel
  unfold collectPrefixed
  rw [Except.bind_of_ok hs]
  dsimp only
  rw [Except.bind_of_ok (tempEnd_ok.2 ⟨by rw [List.nil_append, hrem2]; exact Nat.lt_succ_of_le hlen, rfl⟩)]
  exact ⟨_, rfl⟩

end Prefixed

/-- The character after the digits decides between the two kinds of number. -/
theorem numberText_eq {c : Byte} {cs r : List Byte} (h : cs.dropWhile isDigit = c :: r) :
    numberText cs = if c = chr '.' then (cs.takeWhile isDigit ++ [c]) ++ r.takeWhile isDigit
      else cs.takeWhile isDigit := by
  unfold numberText; rw [h]

theorem collectNumber_spec (h : LexInv text lx) (hc : isDigit lx.currentChar = true)
    (hr : tasmLexerCollectNumber fuel lx = .ok r) : Collected text lx (numberText (remaining lx)) r := by
  have hp : isDigit eofChar = false := by decide
  obtain ⟨⟨lx1, t⟩, h1, hr⟩ := Except.bind_ok hr
  obtain ⟨hinv, -, hrem, rfl⟩ := collectWhile_spec hp h h1
  have hrem : remaining lx1 = (remaining lx).dropWhile isDigit := hrem
  have hinv : LexInv text lx1 := hinv
  obtain ⟨cs, hcs⟩ := h.remaining_head
  have hshort : (remaining lx1).length < (remaining lx).length := by rw [hrem, hcs]; exact dropWhile_shorter hc
  obtain ⟨cs1, hcs1⟩ := hinv.remaining_head
  rw [numberText_eq (hrem.symm.trans hcs1)]
  dsimp only at hr
  -- with a point the digits behind it are collected too
  by_cases hdot : lx1.currentChar = chr '.'
  · rw [if_pos hdot] at hr ⊢
    obtain ⟨t1, ht1, hr⟩ := Except.bind_ok hr
    obtain ⟨-, rfl⟩ := tempPut_ok.1 ht1
    have hne : lx1.currentChar ≠ eofChar := by rw [hdot]; decide
    obtain ⟨hrem1, hinv1, -, -, -⟩ := hinv.advance_cons hne
    obtain ⟨⟨lx2, t2⟩, h2, hr⟩ := Except.bind_ok hr
    obtain ⟨hinv2, -, hrem2, rfl⟩ := collectWhile_spec hp hinv1 h2
    obtain ⟨val, hval, hr⟩ := Except.bind_ok hr
    obtain ⟨hlen, rfl⟩ := tempEnd_ok.1 hval
    cases hr
    obtain rfl : cs1 = remaining (tasmLexerAdvance lx1) := by rw [hcs1] at hrem1; exact (List.cons.inj hrem1).2
    refine ⟨hinv2, Nat.le_of_lt_succ hlen, fun _ => ?_, nofun, nofun⟩
    have hle := List.length_dropWhile_le isDigit (remaining (tasmLexerAdvance lx1))
    rw [hrem1, List.length_cons] at hshort
    show (remaining lx2).length < _
    rw [show remaining lx2 = _ from hrem2]
    omega
  · rw [if_neg hdot] at hr ⊢
    obtain ⟨val, hval, hr⟩ := Except.bind_ok hr
    obtain ⟨hlen, rfl⟩ := tempEnd_ok.1 hval
    cases hr
    exact ⟨hinv, Nat.le_of_lt_succ hlen, fun _ => hshort, nofun, nofun⟩

theorem collectNumber_total (h : LexInv text lx) (hlen : (numberText (remaining lx)).length ≤ 127) :
    ∃ r, tasmLexerCollectNumber (lexFuel text) lx = .ok r := by
  have hp : isDigit eofChar = false := by decide
  have hfuel : ∀ lx', LexInv text lx' → (remaining lx').length ≤ lexFuel text := fun lx' h' => by
    have := h'.remaining_le; unfold lexFuel; omega
  have hdigits : ((remaining lx).takeWhile isDigit).length ≤ (numberText (remaining lx)).length := by
    unfold numberText
    split
    · exact Nat.le_refl _
    · split
      · simp only [List.length_append]; omega
      · exact Nat.le_refl _
  obtain ⟨lx1, hs, hinv, hrem⟩ := collectWhile_returns hp h [] (by simp only [List.length_nil]; omega) (hfuel lx h)
  obtain ⟨cs1, hcs1⟩ := hinv.remaining_head
  rw [numberText_eq (hrem.symm.trans hcs1)] at hlen
  unfold tasmLexerCollectNumber
  rw [Except.bind_of_ok hs]
  dsimp only
  -- with a point the digits behind it are collected too
  by_cases hdot : lx1.currentChar = chr '.'
  · rw [if_pos hdot] at hlen ⊢
    simp only [List.length_append, List.length_singleton] at hlen
    have hput : tempPut ([] ++ (remaining lx).takeWhile isDigit) lx1.currentChar = .ok _ :=
      tempPut_ok.2 ⟨by rw [List.nil_append]; omega, rfl⟩
    rw [Except.bind_of_ok hput]
    have hne : lx1.currentChar ≠ eofChar := by rw [hdot]; decide
    obtain ⟨hrem1, hinv1, -, -, -⟩ := hinv.advance_cons hne
    obtain rfl : cs1 = remaining (tasmLexerAdvance lx1) := by rw [hcs1] at hrem1; exact (List.cons.inj hrem1).2
    obtain ⟨lx2, hs2, -⟩ := collectWhile_returns hp hinv1
      (([] ++ (remaining lx).takeWhile isDigit) ++ [lx1.currentChar]) (by
        simp only [List.nil_append, List.length_append, List.length_singleton]; omega) (hfuel _ hinv1)
    rw [Except.bind_of_ok hs2]
    dsimp only
    rw [Except.bind_of_ok (tempEnd_ok.2 ⟨by
      simp only [List.nil_append, List.length_append, List.length_singleton]; omega, rfl⟩)]
    exact ⟨_, rfl⟩
  · rw [if_neg hdot] at hlen ⊢
    rw [Except.bind_of_ok (tempEnd_ok.2 ⟨by rw [List.nil_append]; omega, rfl⟩)]
    exact ⟨_, rfl⟩

/-- A character that makes a token of its own. -/
theorem collected_one (h : LexInv text lx) (hne : lx.currentChar ≠ eofChar) {t : TasmToken} (ht : t.type ≠ .eof)
    (hid : t.type ≠ .id) : Collected text lx [] (t, tasmLexerAdvance lx) := by
  refine ⟨h.advance, Nat.zero_le _, fun _ => ?_, fun he => absurd he ht, fun he => absurd he hid⟩
  rw [(h.advance_cons hne).1]
  exact Nat.lt_succ_self _

theorem skipLine_eof : (eofChar != chr '\n' && eofChar != eofChar) = false := by decide

theorem collectOneChars_spec (h : LexInv text lx) (hr : lexerCollectOneChars fuel lx = .ok r) :
    Collected text lx [] r := by
  unfold lexerCollectOneChars at hr
  dsimp only at hr
  by_cases heof : lx.currentChar = eofChar
  · rw [heof] at hr
    obtain ⟨-, -, hstay⟩ := h.at_eof heof
    have hr : r = (TasmToken.eof, tasmLexerAdvance lx) := (Except.ok.inj hr).symm
    rw [hr, hstay]
    exact ⟨h, Nat.zero_le _, fun hne => absurd rfl hne, fun _ => ⟨rfl, heof⟩, nofun⟩
  · split at hr
    · cases hr; exact collected_one h heof nofun nofun
    · split at hr
      · -- a comment runs to the end of the line
        rename_i hsemi
        obtain ⟨lx1, h1, hr⟩ := Except.bind_ok hr
        cases hr
        obtain ⟨hinv, -, hrem⟩ := advanceWhile_spec skipLine_eof h h1
        refine ⟨hinv, Nat.zero_le _, fun _ => ?_, nofun, nofun⟩
        obtain ⟨cs, hcs⟩ := h.remaining_head
        rw [hrem, hcs]
        exact dropWhile_shorter (by rw [hsemi]; decide)
      · repeat' split at hr
        all_goals cases hr; exact collected_one h heof nofun nofun

theorem collectOneChars_total (h : LexInv text lx) : ∃ r, lexerCollectOneChars (lexFuel text) lx = .ok r := by
  have hfuel : (remaining lx).length ≤ lexFuel text := by have := h.remaining_le; unfold lexFuel; omega
  unfold lexerCollectOneChars
  dsimp only
  split_ifs
  · exact ⟨_, rfl⟩
  · obtain ⟨lx1, h1⟩ : ∃ lx1, tasmLexerSkipLine (lexFuel text) lx = .ok lx1 :=
      advanceWhile_total skipLine_eof h hfuel
    rw [Except.bind_of_ok h1]
    exact ⟨_, rfl⟩
  all_goals exact ⟨_, rfl⟩

/-! ## One call -/

theorem prefix_ne_eof {c d : Byte} (h : isbinprefix c d = true ∨ ishexprefix c d = true) :
    c ≠ eofChar ∧ d ≠ eofChar := by
  simp only [ isbinprefix, ishexprefix, Bool.and_eq_true, Bool.or_eq_true, beq_iff_eq] at h
  rcases h with ⟨rfl, rfl | rfl⟩ | ⟨rfl, rfl | rfl⟩ <;> decide

theorem collectToken_spec (h : LexInv text lx) (hr : collectToken fuel lx = .ok r) :
    Collected text lx (tokenText (remaining lx)) r := by
  obtain ⟨cs, hcs⟩ := h.remaining_two
  unfold collectToken at hr
  rw [hcs, tokenText]
  split_ifs at hr ⊢ with h1 h2 h3 h4
  · rw [← hcs]
    refine collectId_spec h ?_ hr
    unfold isIdChar
    rw [Bool.or_eq_true] at h1
    rcases h1 with h1 | h1
    · rw [h1]; rfl
    · rw [h1, Bool.or_true]
  · obtain ⟨hc, hn⟩ := prefix_ne_eof (.inl h2)
    have hr : collectPrefixed isBinDigit .binaryNumber fuel lx = .ok r := hr
    exact collectPrefixed_spec hr (by decide) nofun nofun h hcs hc hn
  · obtain ⟨hc, hn⟩ := prefix_ne_eof (.inr h3)
    have hr : collectPrefixed isXDigit .hexNumber fuel lx = .ok r := hr
    exact collectPrefixed_spec hr (by decide) nofun nofun h hcs hc hn
  · rw [← hcs]; exact collectNumber_spec h h4 hr
  · exact collectOneChars_spec h hr

theorem collectToken_total (h : LexInv text lx) (hlen : (tokenText (remaining lx)).length ≤ 127) :
    ∃ r, collectToken (lexFuel text) lx = .ok r := by
  obtain ⟨cs, hcs⟩ := h.remaining_two
  unfold collectToken
  rw [hcs, tokenText] at hlen
  split_ifs at hlen ⊢ with h1 h2 h3 h4
  · rw [← hcs] at hlen; exact collectId_total h hlen
  · obtain ⟨hc, hn⟩ := prefix_ne_eof (.inl h2)
    exact collectPrefixed_total (by decide) h hcs hc hn hlen
  · obtain ⟨hc, hn⟩ := prefix_ne_eof (.inr h3)
    exact collectPrefixed_total (by decide) h hcs hc hn hlen
  · rw [← hcs] at hlen; exact collectNumber_total h hlen
  · exact collectOneChars_total h

theorem inString_true : inString lx = true → lx.currentChar ≠ chr '"' ∧ lx.currentChar ≠ eofChar := by
  unfold inString
  simp only [Bool.and_eq_true, bne_iff_ne, ne_eq]
  rintro ⟨⟨⟨⟨-, hq⟩, -⟩, he⟩, -⟩
  exact ⟨hq, he⟩

theorem inChar_true : inChar lx = true → lx.currentChar ≠ eofChar := by
  unfold inChar
  simp only [Bool.and_eq_true, bne_iff_ne, ne_eq]
  rintro ⟨⟨⟨-, -⟩, he⟩, -⟩
  exact he

/-- A string scan that returns has started with the counter at 0 and fits. -/
theorem collectStr_spec (h : LexInv text lx) (hs : inString lx = true) (hr : tasmLexerCollectStr fuel lx = .ok r) :
    lx.peek = 0 ∧ litLength (lineLength (remaining lx)) (remaining lx) 0 ≤ 127 ∧ Collected text lx [] r := by
  obtain ⟨hq, he⟩ := inString_true hs
  obtain ⟨⟨lx1, lineEnd⟩, h1, hr⟩ := Except.bind_ok hr
  have hpk : lx.peek = 0 := by
    by_contra hpk
    rw [lineEndLoop_diverges h hpk] at h1; cases h1
  obtain ⟨rfl, rfl⟩ := lineEndLoop_spec h hpk h1
  obtain ⟨peek, hreset, hinv⟩ := peekReset_spec h (lineLength (remaining lx) + 1)
  dsimp only at hr
  rw [hreset] at hr
  obtain ⟨⟨lx2, t⟩, h2, hr⟩ := Except.bind_ok hr
  obtain ⟨hinv2, hlen, hshort⟩ := strLoop_spec hinv hq he h2
  obtain ⟨val, hval, hr⟩ := Except.bind_ok hr
  obtain ⟨hroom, rfl⟩ := tempEnd_ok.1 hval
  cases hr
  refine ⟨hpk, ?_, ?_, Nat.zero_le _, fun _ => ?_, nofun, nofun⟩
  · exact hlen ▸ Nat.le_of_lt_succ hroom
  · dsimp only
    split_ifs
    · exact hinv2.report _
    · exact hinv2
  · dsimp only
    split_ifs <;> exact hshort

theorem collectStr_total (h : LexInv text lx) (hs : inString lx = true) (hpk : lx.peek = 0)
    (hlit : litLength (lineLength (remaining lx)) (remaining lx) 0 ≤ 127) :
    ∃ r, tasmLexerCollectStr (lexFuel text) lx = .ok r := by
  obtain ⟨hq, he⟩ := inString_true hs
  have hlen := h.remaining_le
  have hstop := lineLength_le h
  have h1 := lineEndLoop_total h hpk (show _ ≤ lexFuel text by unfold lexFuel; omega)
  obtain ⟨peek, hreset, hinv⟩ := peekReset_spec h (lineLength (remaining lx) + 1)
  obtain ⟨⟨lx2, t⟩, h2⟩ := strLoop_total hinv hlit (show (remaining lx).length + _ ≤ lexFuel text by
    unfold lexFuel; omega)
  unfold tasmLexerCollectStr
  rw [Except.bind_of_ok h1]
  dsimp only
  rw [hreset, Except.bind_of_ok h2]
  dsimp only
  obtain ⟨-, hlen2, -⟩ := strLoop_spec hinv hq he h2
  rw [Except.bind_of_ok (tempEnd_ok.2 ⟨Nat.lt_succ_of_le (hlen2 ▸ hlit), rfl⟩)]
  exact ⟨_, rfl⟩

theorem collectChar_spec (h : LexInv text lx) (hc : inChar lx = true) :
    Collected text lx [] (tasmLexerCollectChar lx) := by
  obtain ⟨hrem, h1, -, -, -⟩ := h.advance_cons (inChar_true hc)
  have hshort : (remaining (tasmLexerAdvance lx)).length < (remaining lx).length := by
    rw [hrem]; exact Nat.lt_succ_self _
  unfold tasmLexerCollectChar
  dsimp only
  split_ifs
  · refine ⟨h1.advance, Nat.zero_le _, fun _ => Nat.lt_of_le_of_lt ?_ hshort, nofun, nofun⟩
    by_cases he : (tasmLexerAdvance lx).currentChar = eofChar
    · rw [(h1.at_eof he).2.2]
    · rw [(h1.advance_cons he).1]; exact Nat.le_succ _
  · exact ⟨h1, Nat.zero_le _, fun _ => hshort, nofun, nofun⟩

/-- A call that returns satisfies the condition, takes a character unless it is at the end, and
keeps the invariant. -/
theorem getNextToken_spec (h : LexInv text lx) (hr : tasmLexerGetNextToken fuel lx = .ok r) :
    Scannable lx ∧ Collected text lx [] r := by
  unfold tasmLexerGetNextToken at hr
  unfold Scannable
  split_ifs at hr ⊢ with hs hc
  · obtain ⟨hpk, hlit, hcol⟩ := collectStr_spec h hs hr
    exact ⟨⟨hpk, hlit⟩, hcol⟩
  · cases hr
    refine ⟨trivial, collectChar_spec h hc⟩
  · obtain ⟨lx1, h1, hr⟩ := Except.bind_ok hr
    obtain ⟨hinv, -, hrem⟩ := advanceWhile_spec (by decide) h h1
    have hcol := collectToken_spec hinv hr
    rw [hrem] at hcol
    have hle := List.length_dropWhile_le isBlank (remaining lx)
    exact ⟨hcol.fits, hcol.inv, Nat.zero_le _, fun hne => by have := hcol.moves hne; rw [hrem] at this; omega, hcol.ends, hcol.idText⟩

/-- A call in a scannable state returns. -/
theorem getNextToken_total (h : LexInv text lx) (hs : Scannable lx) :
    ∃ r, tasmLexerGetNextToken (lexFuel text) lx = .ok r := by
  unfold Scannable at hs
  unfold tasmLexerGetNextToken
  split_ifs at hs ⊢ with hstr
  · exact collectStr_total h hstr hs.1 hs.2
  · exact ⟨_, rfl⟩
  · obtain ⟨lx1, h1⟩ : ∃ lx1, tasmLexerSkipWhitespace (lexFuel text) lx = .ok lx1 :=
      advanceWhile_total (by decide) h (by have := h.remaining_le; unfold lexFuel; omega)
    obtain ⟨hinv, -, hrem⟩ := advanceWhile_spec (by decide) h h1
    rw [Except.bind_of_ok h1]
    exact collectToken_total hinv (hrem ▸ hs)

end Collectors

/-! ## All calls -/

/-- A call that returns. -/
def LexCall (lx : TasmLexer) (t : TasmToken) (lx' : TasmLexer) : Prop :=
  ∃ fuel, tasmLexerGetNextToken fuel lx = .ok (t, lx')

/-- `lx'` is reached from `lx` by calls that return. -/
def LexReach : TasmLexer → TasmLexer → Prop := ReflTransGen fun lx lx' => ∃ t, LexCall lx t lx'

/-- The calls from `lx` on return the tokens `ts` and then `TOKEN_EOF`. -/
inductive LexTokens : TasmLexer → List TasmToken → Prop where
  | eof {lx lx' : TasmLexer} (call : LexCall lx .eof lx') : LexTokens lx []
  | cons {lx lx' : TasmLexer} {t : TasmToken} {ts : List TasmToken} (call : LexCall lx t lx')
      (ne : t.type ≠ .eof) (rest : LexTokens lx' ts) : LexTokens lx (t :: ts)

theorem LexTokens.ne_eof {lx : TasmLexer} {ts : List TasmToken} (h : LexTokens lx ts) : ∀ t ∈ ts, t.type ≠ .eof := by
  induction h with
  | eof => simp
  | cons call ne rest ih => simpa [ne] using ih

section Calls

variable {text : List Byte} {lx lx' : TasmLexer} {t : TasmToken}

theorem LexCall.collected (hc : LexCall lx t lx') (h : LexInv text lx) : Scannable lx ∧ Collected text lx [] (t, lx') := by
  obtain ⟨fuel, hr⟩ := hc
  exact getNextToken_spec h hr

theorem LexReach.inv (hr : LexReach lx lx') (h : LexInv text lx) : LexInv text lx' := by
  induction hr with
  | refl => exact h
  | tail _ hstep ih =>
    obtain ⟨t, hc⟩ := hstep
    exact (hc.collected ih).2.inv

/-- When every state that is reached is scannable, the text is read to its end in at most one call
for each of its characters. -/
theorem lexTokens_of_scannable : ∀ (n : Nat) (lx : TasmLexer), LexInv text lx → text.length - lx.cursor ≤ n →
    (∀ lx', LexReach lx lx' → Scannable lx') → ∃ ts, LexTokens lx ts ∧ ts.length ≤ text.length - lx.cursor
  | n, lx, h, hn, hs => by
    obtain ⟨⟨t, lx'⟩, hr⟩ := getNextToken_total h (hs lx .refl)
    have hc : LexCall lx t lx' := ⟨_, hr⟩
    obtain ⟨-, hcol⟩ := hc.collected h
    by_cases he : t.type = .eof
    · obtain ⟨rfl, -⟩ := hcol.ends he
      exact ⟨[], .eof hc, Nat.zero_le _⟩
    · have hlt := h.cursor_lt hcol.inv (hcol.moves he)
      have hle := hcol.inv.cursor
      have hlt : lx.cursor < lx'.cursor := hlt
      have hle : lx'.cursor ≤ text.length := hle
      match n with
      | 0 => omega
      | n + 1 =>
        obtain ⟨ts, hts, hlen⟩ := lexTokens_of_scannable n lx' hcol.inv (by omega)
          fun lx'' hr => hs lx'' (.head ⟨t, hc⟩ hr)
        exact ⟨t :: ts, .cons hc he hts, by rw [List.length_cons]; omega⟩

end Calls

/-! ## Fuel -/

/-- Every result of `x` is one of `y`. -/
def Extends {α : Type} (x y : Lex α) : Prop := x.Follows False (fun _ => True) (fun a b => b = a) y

namespace Extends

variable {α β : Type} {n m : Nat}

theorem bind {x y : Lex α} {f g : α → Lex β} (h : Extends x y) (hf : ∀ a, Extends (f a) (g a)) :
    Extends (x >>= f) (y >>= g) :=
  Except.Follows.bind h fun a _ _ hab => hab ▸ hf a

theorem same {x : Lex α} {f g : α → Lex β} (hf : ∀ a, Extends (f a) (g a)) : Extends (x >>= f) (x >>= g) :=
  bind (Except.Follows.refl x) hf

theorem loop {σ : Type} {cond : σ → Bool} {body : σ → Lex σ} (hle : n ≤ m) (s : σ) :
    Extends (Loop.run cond body n s) (Loop.run cond body m s) where
  result a h _ := ⟨a, Loop.run_mono hle h nofun, rfl⟩
  fault := False.elim

theorem collectToken (hle : n ≤ m) (lx : TasmLexer) : Extends (collectToken n lx) (collectToken m lx) := by
  have refl {x : Lex (TasmToken × TasmLexer)} : Extends x x := Except.Follows.refl x
  unfold TileVm.collectToken
  refine .ite Iff.rfl (fun _ => ?_) fun _ => .ite Iff.rfl (fun _ => ?_) fun _ => .ite Iff.rfl (fun _ => ?_) fun _ =>
    .ite Iff.rfl (fun _ => ?_) fun _ => ?_
  · exact bind (loop hle _) fun _ => refl
  · exact bind (loop hle _) fun _ => refl
  · exact bind (loop hle _) fun _ => refl
  · refine bind (loop hle _) fun _ => .ite Iff.rfl (fun _ => ?_) fun _ => refl
    exact same fun _ => bind (loop hle _) fun _ => refl
  · unfold lexerCollectOneChars
    dsimp only
    refine .ite Iff.rfl (fun _ => refl) fun _ => .ite Iff.rfl (fun _ => ?_) fun _ => refl
    exact bind (loop hle _) fun _ => refl

/-- More fuel does not change what a call returns. -/
theorem getNextToken (hle : n ≤ m) (lx : TasmLexer) :
    Extends (tasmLexerGetNextToken n lx) (tasmLexerGetNextToken m lx) := by
  unfold tasmLexerGetNextToken
  refine .ite Iff.rfl (fun _ => ?_) fun _ => .ite Iff.rfl (fun _ => Except.Follows.refl _) fun _ =>
    bind (loop hle _) fun lx => collectToken hle lx
  refine bind (bind (loop hle _) fun _ => Except.Follows.refl _) fun _ => ?_
  exact bind (loop hle _) fun _ => Except.Follows.refl _

end Extends

section Calls

variable {lx lx' : TasmLexer} {t : TasmToken}

theorem LexCall.unique {t₂ : TasmToken} {lx₂ : TasmLexer} (h : LexCall lx t lx') (h₂ : LexCall lx t₂ lx₂) :
    t₂ = t ∧ lx₂ = lx' := by
  obtain ⟨n, hn⟩ := h
  obtain ⟨m, hm⟩ := h₂
  obtain ⟨r, hr, rfl⟩ := (Extends.getNextToken (Nat.le_max_left n m) lx).result _ hn trivial
  obtain ⟨r₂, hr₂, rfl⟩ := (Extends.getNextToken (Nat.le_max_right n m) lx).result _ hm trivial
  rw [hr] at hr₂
  cases hr₂
  exact ⟨rfl, rfl⟩

theorem advance_eof (h : lx.currentChar = eofChar) : tasmLexerAdvance lx = lx := by
  have hline : lx.currentChar ≠ chr '\n' := by rw [h]; decide
  unfold tasmLexerAdvance
  rw [if_neg hline, if_neg fun hc => hc.1 h]

/-- At the marker the lexer returns `TOKEN_EOF` and stays. -/
theorem getNextToken_eof (fuel : Nat) (h : lx.currentChar = eofChar) :
    tasmLexerGetNextToken fuel lx = .ok (.eof, lx) := by
  have hskip : tasmLexerSkipWhitespace fuel lx = .ok lx := Loop.run_exit (by rw [h]; decide)
  have hstr : inString lx = false := by simp [inString, h]
  have hchar : inChar lx = false := by simp [inChar, h]
  unfold tasmLexerGetNextToken
  rw [hstr, hchar, if_neg (by decide), if_neg (by decide), Except.bind_of_ok hskip]
  unfold collectToken lexerCollectOneChars isbinprefix ishexprefix
  rw [h, advance_eof h]
  rfl

/-- What is reached from a state is the state, or is reached from the state behind the next call. -/
theorem LexReach.next {lx₁ s : TasmLexer} {t : TasmToken} (call : LexCall lx t lx₁) (h : LexReach lx s) :
    s = lx ∨ LexReach lx₁ s := by
  rcases Relation.ReflTransGen.cases_head h with rfl | ⟨l, ⟨t', hcall⟩, hrest⟩
  · exact .inl rfl
  · obtain ⟨-, rfl⟩ := call.unique hcall
    exact .inr hrest

theorem LexReach.at_eof {s : TasmLexer} (heof : lx.currentChar = eofChar) (h : LexReach lx s) : s = lx := by
  induction h with
  | refl => rfl
  | tail _ hstep ih =>
    subst ih
    obtain ⟨t, fuel, hr⟩ := hstep
    rw [getNextToken_eof fuel heof] at hr
    cases hr
    rfl

end Calls

/-! ## Termination -/

/-- On a text without NUL and `0xFF`: every call from `tasm_lexer_init` on returns, every call that
does not return `TOKEN_EOF` advances the cursor, and `TOKEN_EOF` comes after at most as many calls as
there are characters, if and only if every state in which a call is made is scannable. -/
theorem lexer_terminates_iff (text : List Byte) (htext : Plain text) :
    ((∀ lx, LexReach (tasmLexerInit (marked text)) lx →
        (∃ t lx', LexCall lx t lx') ∧ ∀ t lx', LexCall lx t lx' → t.type ≠ .eof → lx.cursor < lx'.cursor) ∧
      ∃ ts, LexTokens (tasmLexerInit (marked text)) ts ∧ ts.length ≤ text.length) ↔
    ∀ lx, LexReach (tasmLexerInit (marked text)) lx → Scannable lx := by
  have hinit := LexInv.init htext
  constructor
  · rintro ⟨hcalls, -⟩ lx hr
    obtain ⟨⟨t, lx', hc⟩, -⟩ := hcalls lx hr
    exact (hc.collected (hr.inv hinit)).1
  · intro hs
    refine ⟨fun lx hr => ⟨?_, fun t lx' hc ht => ?_⟩, ?_⟩
    · obtain ⟨⟨t, lx'⟩, hr'⟩ := getNextToken_total (hr.inv hinit) (hs lx hr)
      exact ⟨t, lx', _, hr'⟩
    · obtain ⟨-, hcol⟩ := hc.collected (hr.inv hinit)
      exact (hr.inv hinit).cursor_lt hcol.inv (hcol.moves ht)
    · obtain ⟨ts, hts, hlen⟩ := lexTokens_of_scannable _ _ hinit (Nat.le_refl _) hs
      exact ⟨ts, hts, hlen⟩

/-- The state after `n` calls with the given fuel. -/
def afterCalls (fuel : Nat) : Nat → TasmLexer → Option TasmLexer
  | 0, lx => some lx
  | n + 1, lx =>
    match tasmLexerGetNextToken fuel lx with
    | .ok (_, lx') => afterCalls fuel n lx'
    | .error _ => none

theorem afterCalls_reach (fuel : Nat) : ∀ (n : Nat) (lx lx' : TasmLexer),
    afterCalls fuel n lx = some lx' → LexReach lx lx'
  | 0, lx, lx', h => by cases h; exact .refl
  | n + 1, lx, lx', h => by
    unfold afterCalls at h
    split at h
    · rename_i t lx1 hr
      exact .head ⟨t, fuel, hr⟩ (afterCalls_reach fuel n lx1 lx' h)
    · cases h

/-- A literal on the last line leaves the peek counter past the end; a blank after its closing
quote is taken for another literal, whose scan does not end. -/
theorem lexer_diverges_last_line : Plain (cstr "@data \"a\" ") ∧ ∃ lx,
    LexReach (tasmLexerInit (marked (cstr "@data \"a\" "))) lx ∧ ¬ ∃ t lx', LexCall lx t lx' := by
  have hplain : Plain (cstr "@data \"a\" ") := by unfold Plain; decide
  have hscan : (afterCalls 40 5 (tasmLexerInit (marked (cstr "@data \"a\" ")))).map
      (fun lx => decide (Scannable lx)) = some false := by decide
  obtain ⟨lx, hlx, hs⟩ := Option.map_eq_some_iff.1 hscan
  have hreach := afterCalls_reach 40 5 _ lx hlx
  refine ⟨hplain, lx, hreach, ?_⟩
  rintro ⟨t, lx', hc⟩
  exact of_decide_eq_false hs (hc.collected (hreach.inv (.init hplain))).1

/-- The next `n` calls are made in scannable states, and come to the marker. -/
def callsScan (fuel : Nat) : Nat → TasmLexer → Bool
  | 0, lx => decide (Scannable lx) && lx.currentChar == eofChar
  | n + 1, lx => decide (Scannable lx) && (tasmLexerGetNextToken fuel lx).okAnd fun r => callsScan fuel n r.2

theorem scannable_of_callsScan {fuel n : Nat} {lx lx' : TasmLexer} (h : callsScan fuel n lx = true) (hr : LexReach lx lx') :
    Scannable lx' := by
  induction n generalizing lx with
  | zero =>
    obtain ⟨hs, heof⟩ := Bool.and_eq_true_iff.1 h
    rw [hr.at_eof (eq_of_beq heof)]
    exact of_decide_eq_true hs
  | succ n ih =>
    obtain ⟨hs, hcall⟩ := Bool.and_eq_true_iff.1 h
    obtain ⟨⟨t, lx₁⟩, hcall, hrest⟩ := Except.okAnd_eq_true hcall
    rcases hr.next ⟨fuel, hcall⟩ with rfl | hr
    · exact of_decide_eq_true hs
    · exact ih hrest hr

/-- Two literals that close, with instructions between them. -/
def twoLiterals : List Byte := cstr "@data \"a\"\npush 7\n@data \"b\\n\"\nhlt\n"

theorem lexer_terminates_literals :
    (∀ lx, LexReach (tasmLexerInit (marked twoLiterals)) lx →
      (∃ t lx', LexCall lx t lx') ∧ ∀ t lx', LexCall lx t lx' → t.type ≠ .eof → lx.cursor < lx'.cursor) ∧
    ∃ ts, LexTokens (tasmLexerInit (marked twoLiterals)) ts ∧ ts.length ≤ twoLiterals.length := by
  have hscan : callsScan 40 17 (tasmLexerInit (marked twoLiterals)) = true := by decide +kernel
  exact (lexer_terminates_iff twoLiterals (by unfold Plain; decide)).2 fun lx hr => scannable_of_callsScan hscan hr

end TileVm
