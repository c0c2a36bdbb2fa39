/-
What the lexer writes into `temp_val`. Each collector copies a text that the characters in front of it
determine, byte for byte, and looks at no bound: the writes stay inside exactly when the text and its
NUL fit. This holds on any source, whatever bytes it has.
-/
import TileVm.Tasm.LexerReports

namespace TileVm

/-! ## Texts -/

/-- The bytes that a string scan collects from the characters `cs`, at most `room`: up to the closing quote, with
escape sequences decoded. At the end of the text the scan puts the last character into the text again and again. -/
def litText : Nat → List Byte → List Byte
  | room, [] => List.replicate room 0
  | room, [c] =>
    if room = 0 ∨ c = chr '"' then []
    else if c = 0 ∨ c = eofChar then List.replicate room c
    else if c ≠ chr '\\' then c :: List.replicate (room - 1) 0
    else List.replicate room 0
  | room, c :: e :: cs =>
    if room = 0 ∨ c = chr '"' then []
    else if c = 0 ∨ c = eofChar then List.replicate room c
    else if c ≠ chr '\\' then c :: litText (room - 1) (e :: cs)
    else if e = 0 ∨ e = eofChar then List.replicate room e
    else
      match unescape e with
      | some b => b :: litText (room - 1) cs
      | none => litText room cs

/-- The text of the identifier or number at the head of `cs`. -/
def tempText (cs : List Byte) : Option (List Byte) :=
  if isAlpha (cs.headD 0) || cs.headD 0 == chr '_' then some (cs.takeWhile isIdChar)
  else if isbinprefix (cs.headD 0) (cs.getD 1 0) then some (cs.tail.tail.takeWhile isBinDigit)
  else if ishexprefix (cs.headD 0) (cs.getD 1 0) then some (cs.tail.tail.takeWhile isXDigit)
  else if isDigit (cs.headD 0) then some (numberText cs)
  else none

/-- The scan for the end of the line comes to an end. -/
def LineEnds (lx : TasmLexer) : Prop := lx.peek = 0 ∧ lineLength (remaining lx) + lx.cursor < lx.sourceCodeSize

instance (lx : TasmLexer) : Decidable (LineEnds lx) := inferInstanceAs (Decidable (_ ∧ _))

/-- The text that the next call writes into `temp_val`, if it gets to that. -/
def copiedText (lx : TasmLexer) : Option (List Byte) :=
  if inString lx then if LineEnds lx then some (litText (lineLength (remaining lx) + 1) (remaining lx)) else none
  else if inChar lx then if (tasmLexerAdvance lx).currentChar = chr '\'' then some [lx.currentChar] else none
  else tempText ((remaining lx).dropWhile isBlank)

/-- The text of the next token and its NUL fit into `temp_val`. -/
def TokenFits (lx : TasmLexer) : Prop := ∀ w ∈ copiedText lx, w.length ≤ 127

/-- The next call writes nothing behind `temp_val`, and the value of its token is the text written. -/
structure TempValKept (lx : TasmLexer) : Prop where
  inside : ∀ fuel, tasmLexerGetNextToken fuel lx ≠ .error (.fault (.outOfBounds .tempVal))
  value : ∀ t lx', LexCall lx t lx' → ∀ w ∈ copiedText lx, t.value = some w

section LitText

variable {room : Nat} {c e : Byte} {cs : List Byte}

theorem litText_zero (cs : List Byte) : litText 0 cs = [] := by
  rcases cs with _ | ⟨c, _ | ⟨e, cs⟩⟩
  · rfl
  · rw [litText, if_pos (.inl rfl)]
  · rw [litText, if_pos (.inl rfl)]

theorem litText_quote (h : cs.headD 0 = chr '"') : litText room cs = [] := by
  rcases cs with _ | ⟨c, _ | ⟨e, cs⟩⟩
  · cases h
  · rw [litText, if_pos (.inr h)]
  · rw [litText, if_pos (.inr h)]

theorem end_not_quote (h : c = 0 ∨ c = eofChar) : c ≠ chr '"' := by
  rcases h with rfl | rfl <;> decide

theorem litText_end (h : cs.headD 0 = 0 ∨ cs.headD 0 = eofChar) : litText room cs = List.replicate room (cs.headD 0) := by
  rcases room with _ | room
  · rw [litText_zero]
    rfl
  · have hgo {c : Byte} (hc : c = 0 ∨ c = eofChar) : ¬ (room + 1 = 0 ∨ c = chr '"') :=
      not_or.2 ⟨Nat.succ_ne_zero room, end_not_quote hc⟩
    rcases cs with _ | ⟨c, _ | ⟨e, cs⟩⟩
    · rfl
    · have h : c = 0 ∨ c = eofChar := h
      rw [litText, if_neg (hgo h), if_pos h]
      rfl
    · have h : c = 0 ∨ c = eofChar := h
      rw [litText, if_neg (hgo h), if_pos h]
      rfl

theorem litText_char (hq : c ≠ chr '"') (hend : ¬ (c = 0 ∨ c = eofChar)) (hb : c ≠ chr '\\') :
    litText (room + 1) (c :: cs) = c :: litText room cs := by
  have hgo : ¬ (room + 1 = 0 ∨ c = chr '"') := not_or.2 ⟨Nat.succ_ne_zero room, hq⟩
  rcases cs with _ | ⟨e, cs⟩
  · show litText (room + 1) [c] = c :: List.replicate room 0
    rw [litText, if_neg hgo, if_neg hend, if_pos hb, Nat.add_sub_cancel]
  · rw [litText, if_neg hgo, if_neg hend, if_pos hb, Nat.add_sub_cancel]

theorem backslash_goes (room : Nat) : ¬ (room + 1 = 0 ∨ chr '\\' = chr '"') :=
  not_or.2 ⟨Nat.succ_ne_zero room, by decide⟩

/-- A backslash at the end of the text is dropped. -/
theorem litText_escape_end (h : cs.headD 0 = 0 ∨ cs.headD 0 = eofChar) :
    litText (room + 1) (chr '\\' :: cs) = litText (room + 1) cs := by
  rw [litText_end h]
  rcases cs with _ | ⟨e, cs⟩
  · rw [litText, if_neg (backslash_goes room), if_neg (by decide), if_neg (by decide)]
    rfl
  · rw [litText, if_neg (backslash_goes room), if_neg (by decide), if_neg (by decide),
      if_pos (show e = 0 ∨ e = eofChar from h)]
    rfl

theorem litText_escape (hend : ¬ (e = 0 ∨ e = eofChar)) :
    litText (room + 1) (chr '\\' :: e :: cs) =
      match unescape e with
      | some b => b :: litText room cs
      | none => litText (room + 1) cs := by
  rw [litText, if_neg (backslash_goes room), if_neg (by decide), if_neg (by decide), if_neg hend, Nat.add_sub_cancel]

end LitText

/-! ## Outcomes -/

/-- How a call that copies the text `w` fails: for want of fuel, or because the text does not fit. -/
def Fails (fuel room : Nat) (w : Option (List Byte)) (e : Stop Fault) : Prop :=
  e = .fuel ∧ (w.isSome = true → fuel ≤ room) ∨ e = .fault (.outOfBounds .tempVal) ∧ ∃ v ∈ w, 127 < v.length

/-- The call returns a token with the text `w`, which fits, or fails as it may. -/
def Copies (fuel room : Nat) (w : Option (List Byte)) (x : Lex (TasmToken × TasmLexer)) : Prop :=
  x.Post (Fails fuel room w) fun r => ∀ v ∈ w, v.length ≤ 127 ∧ r.1.value = some v

section Collectors

variable {lx : TasmLexer} {fuel room : Nat} {p : Byte → Bool} {t w : List Byte}

theorem tempEnd_copies (type : CStr → TokenType) (lx : TasmLexer) (w : List Byte) :
    Copies fuel room (some w) (tempEnd w >>= fun val => .ok (⟨type val, some val⟩, lx)) := by
  unfold tempEnd
  by_cases h : w.length < 128
  · rw [if_pos h]
    rintro v hv
    obtain rfl := Option.some.inj hv
    exact ⟨Nat.le_of_lt_succ h, rfl⟩
  · rw [if_neg h]
    exact .inr ⟨rfl, w, rfl, Nat.lt_of_not_le fun hle => h (Nat.lt_succ_of_le hle)⟩

theorem takeWhile_headD {cs : List Byte} (h : p (cs.headD 0) = false) : cs.takeWhile p = [] ∧ cs.dropWhile p = cs := by
  cases cs with
  | nil => exact ⟨rfl, rfl⟩
  | cons c cs => exact ⟨List.takeWhile_cons_of_neg (by simpa using h), List.dropWhile_cons_of_neg (by simpa using h)⟩

/-- A class of characters that neither the NUL nor the marker is in. -/
structure Stops (p : Byte → Bool) : Prop where
  zero : p 0 = false
  eof : p eofChar = false

theorem Stops.not_end (hp : Stops p) (h : p lx.currentChar = true) : ¬ AtEnd lx := by
  rintro (he | he)
  · rw [he, hp.zero] at h
    cases h
  · rw [he, hp.eof] at h
    cases h

/-- A loop over a class of characters passes over those in front of the lexer. -/
theorem advanceWhile_post (hp : Stops p) (h : OnText lx) :
    (advanceWhile p fuel lx).Post (fun e => e = .fuel ∧ fuel ≤ (remaining lx).length)
      fun lx' => OnText lx' ∧ remaining lx' = (remaining lx).dropWhile p := by
  let I (s : TasmLexer) : Prop := OnText s ∧ (remaining s).dropWhile p = (remaining lx).dropWhile p
  refine (Loop.run_bounded (F := fun _ => False) I (fun s => (remaining s).length) ?_ fuel lx ⟨h, rfl⟩).mono ?_ ?_
  · rintro s ⟨hs, hdrop⟩ hc
    obtain ⟨hs', hrem, -⟩ := hs.advance_cons (hp.not_end hc)
    rw [hrem, List.dropWhile_cons_of_pos hc] at hdrop
    refine .ok ⟨⟨hs', hdrop⟩, ?_⟩
    rw [hrem]
    exact Nat.lt_succ_self _
  · rintro e (he | he)
    · exact he
    · exact he.elim
  · rintro s ⟨⟨hs, hdrop⟩, hexit⟩
    rw [← hs.remaining_head] at hexit
    rw [(takeWhile_headD hexit).2] at hdrop
    exact ⟨hs, hdrop⟩

/-- A loop that collects copies the characters of its class. -/
theorem collectWhile_post (hp : Stops p) (h : OnText lx) (t : List Byte) (hroom : (remaining lx).length ≤ room) :
    (collectWhile p fuel (lx, t)).Post (Fails fuel room (some (t ++ (remaining lx).takeWhile p)))
      fun r => OnText r.1 ∧ remaining r.1 = (remaining lx).dropWhile p ∧ r.2 = t ++ (remaining lx).takeWhile p := by
  let I (s : TasmLexer × List Byte) : Prop := OnText s.1 ∧ (remaining s.1).dropWhile p = (remaining lx).dropWhile p ∧
    s.2 ++ (remaining s.1).takeWhile p = t ++ (remaining lx).takeWhile p
  refine (Loop.run_bounded (F := Fails fuel room (some (t ++ (remaining lx).takeWhile p))) I (fun s => (remaining s.1).length)
    ?_ fuel (lx, t) ⟨h, rfl, rfl⟩).mono ?_ ?_
  · rintro ⟨s, t₁⟩ ⟨hs, hdrop, htake⟩ hc
    obtain ⟨hs', hrem, -⟩ := hs.advance_cons (hp.not_end hc)
    dsimp only at hc hrem hdrop htake ⊢
    rw [hrem, List.dropWhile_cons_of_pos hc] at hdrop
    rw [hrem, List.takeWhile_cons_of_pos hc] at htake
    refine .map (.ite (fun _ => ⟨⟨hs', hdrop, ?_⟩, ?_⟩) fun hfull => .inr ⟨rfl, _, rfl, ?_⟩)
    · rw [← htake]
      simp
    · show (remaining (tasmLexerAdvance s)).length < (remaining s).length
      rw [hrem]
      exact Nat.lt_succ_self _
    · -- the character that does not fit belongs to the text
      rw [← htake, List.length_append, List.length_cons]
      omega
  · rintro e (⟨rfl, hle⟩ | he)
    · exact .inl ⟨rfl, fun _ => hle.trans hroom⟩
    · exact he
  · rintro ⟨s, t₁⟩ ⟨⟨hs, hdrop, htake⟩, hexit⟩
    have hexit : p s.currentChar = false := hexit
    rw [← hs.remaining_head] at hexit
    obtain ⟨hnone, hall⟩ := takeWhile_headD hexit
    rw [hall] at hdrop
    rw [hnone, List.append_nil] at htake
    exact ⟨hs, hdrop, htake⟩

theorem Fails.longer {v : List Byte} {e : Stop Fault} (h : Fails fuel room (some w) e) (hle : w.length ≤ v.length) :
    Fails fuel room (some v) e := by
  rcases h with ⟨he, hfuel⟩ | ⟨he, u, hu, hlong⟩
  · exact .inl ⟨he, fun _ => hfuel rfl⟩
  · obtain rfl := Option.some.inj hu
    exact .inr ⟨he, v, rfl, Nat.lt_of_lt_of_le hlong hle⟩

theorem stops_idChar : Stops isIdChar := ⟨by decide, by decide⟩

theorem stops_digit : Stops isDigit := ⟨by decide, by decide⟩

/-- `tasm_lexer_collect_id`. -/
theorem collectId_copies (h : OnText lx) (hroom : (remaining lx).length ≤ room) :
    Copies fuel room (some ((remaining lx).takeWhile isIdChar)) (tasmLexerCollectId fuel lx) := by
  refine .bind ((collectWhile_post stops_idChar h [] hroom).mono (fun _ he => he) ?_)
  rintro ⟨lx₁, text⟩ ⟨-, -, rfl⟩
  exact tempEnd_copies wordType lx₁ _

/-- The numbers with a prefix. -/
theorem collectPrefixed_copies {type : TokenType} (hp : Stops p) (h : OnText lx) (hroom : (remaining lx).length ≤ room)
    (hfirst : ¬ AtEnd lx) (hsecond : ¬ AtEnd (tasmLexerAdvance lx)) :
    Copies fuel room (some ((remaining lx).tail.tail.takeWhile p)) (collectPrefixed p type fuel lx) := by
  obtain ⟨h₁, hrem₁, -⟩ := h.advance_cons hfirst
  obtain ⟨h₂, hrem₂, -⟩ := h₁.advance_cons hsecond
  have htail : (remaining lx).tail.tail = remaining (tasmLexerAdvance (tasmLexerAdvance lx)) := by
    rw [hrem₁, List.tail_cons, hrem₂, List.tail_cons]
  have hroom₂ : (remaining (tasmLexerAdvance (tasmLexerAdvance lx))).length ≤ room := by
    rw [hrem₁, hrem₂] at hroom
    simp only [List.length_cons] at hroom
    omega
  rw [htail]
  unfold collectPrefixed
  generalize tasmLexerAdvance (tasmLexerAdvance lx) = lx₂ at h₂ hroom₂ ⊢
  refine .bind ((collectWhile_post hp h₂ [] hroom₂).mono (fun _ he => he) ?_)
  rintro ⟨lx₁, text⟩ ⟨-, -, rfl⟩
  exact tempEnd_copies (fun _ => type) lx₁ _

theorem numberText_split {cs : List Byte} : numberText cs =
    if (cs.dropWhile isDigit).headD 0 = chr '.' then
      (cs.takeWhile isDigit ++ [chr '.']) ++ (cs.dropWhile isDigit).tail.takeWhile isDigit
    else cs.takeWhile isDigit := by
  cases h : cs.dropWhile isDigit with
  | nil =>
    rw [if_neg (by decide)]
    unfold numberText
    rw [h]
  | cons c r =>
    rw [numberText_eq h]
    rw [List.headD_cons, List.tail_cons]
    split_ifs with hdot
    · rw [hdot]
    · rfl

/-- `tasm_lexer_collect_number`. -/
theorem collectNumber_copies (h : OnText lx) (hroom : (remaining lx).length ≤ room) :
    Copies fuel room (some (numberText (remaining lx))) (tasmLexerCollectNumber fuel lx) := by
  have hdigits : ((remaining lx).takeWhile isDigit).length ≤ (numberText (remaining lx)).length := by
    rw [numberText_split]
    split
    · simp only [List.length_append]
      omega
    · exact Nat.le_refl _
  refine .bind ((collectWhile_post stops_digit h [] hroom).mono (fun _ he => he.longer hdigits) ?_)
  rintro ⟨lx₁, text⟩ ⟨h₁, hrem₁, rfl⟩
  have hrem₁ : remaining lx₁ = (remaining lx).dropWhile isDigit := hrem₁
  have h₁ : OnText lx₁ := h₁
  rw [numberText_split, ← hrem₁, h₁.remaining_head]
  refine .ite (fun hdot => ?_) fun hdot => ?_
  · rw [if_pos hdot, hdot]
    -- the point, and the digits behind it
    have hend : ¬ AtEnd lx₁ := by
      rintro (he | he) <;> rw [hdot] at he <;> cases he
    obtain ⟨h₂, hrem₂, -⟩ := h₁.advance_cons hend
    have hroom₂ : (remaining (tasmLexerAdvance lx₁)).length ≤ room := by
      have hle := List.length_dropWhile_le isDigit (remaining lx)
      rw [← hrem₁, hrem₂, List.length_cons] at hle
      omega
    rw [hrem₂, List.tail_cons]
    refine .bind (.ite (fun _ => ?_) fun hfull => ?_)
    · refine .bind ((collectWhile_post stops_digit h₂ _ hroom₂).mono (fun _ he => he) ?_)
      rintro ⟨lx₂, text⟩ ⟨-, -, rfl⟩
      exact tempEnd_copies (fun _ => .floatNumber) lx₂ _
    · refine .inr ⟨rfl, _, rfl, ?_⟩
      simp only [List.nil_append] at hfull
      simp only [List.length_append, List.length_singleton]
      omega
  · rw [if_neg hdot]
    exact tempEnd_copies (fun _ => .decimalNumber) lx₁ _

/-- The characters that make a token of their own. -/
theorem collectOneChars_copies : Copies fuel room none (lexerCollectOneChars fuel lx) := by
  have any {x : TasmToken × TasmLexer} : Copies fuel room none (.ok x) := .ok fun v hv => absurd hv (by simp)
  unfold lexerCollectOneChars
  dsimp only
  refine .ite (fun _ => any) fun _ => .ite (fun _ => ?_) fun _ => ?_
  · have hskip : (tasmLexerSkipLine fuel lx).Post (fun e => e = .fuel) fun _ => True :=
      (Loop.run_post (F := fun e => e = .fuel) rfl (fun _ => True) (fun _ _ _ => .ok trivial) fuel lx trivial).mono (fun _ he => he) fun _ _ => trivial
    exact .bind (hskip.mono (fun e he => .inl ⟨he, nofun⟩) fun _ _ => any)
  · repeat' refine .ite (fun _ => any) fun _ => ?_
    exact any

/-- Behind a prefix the text goes on. -/
theorem not_end_of_prefix (h : OnText lx) (hpair : isbinprefix lx.currentChar lx.nextChar = true ∨
    ishexprefix lx.currentChar lx.nextChar = true) : ¬ AtEnd lx ∧ ¬ AtEnd (tasmLexerAdvance lx) := by
  have hchars : (lx.currentChar ≠ 0 ∧ lx.currentChar ≠ eofChar) ∧ lx.nextChar ≠ 0 ∧ lx.nextChar ≠ eofChar := by
    simp only [ isbinprefix, ishexprefix, Bool.and_eq_true, Bool.or_eq_true, beq_iff_eq] at hpair
    rcases hpair with ⟨hc, hn | hn⟩ | ⟨hc, hn | hn⟩ <;> rw [hc, hn] <;> decide
  have hend : ¬ AtEnd lx := not_or.2 hchars.1
  obtain ⟨h₁, hrem, -⟩ := h.advance_cons hend
  have hcur : (tasmLexerAdvance lx).currentChar = lx.nextChar := by
    rw [← h₁.remaining_head, h.next, LexInv.charAt_add, hrem]
    cases remaining (tasmLexerAdvance lx) <;> rfl
  refine ⟨hend, ?_⟩
  unfold AtEnd
  rw [hcur]
  exact not_or.2 hchars.2

/-- What is not a literal. -/
theorem collectToken_copies (h : OnText lx) (hroom : (remaining lx).length ≤ room) :
    Copies fuel room (tempText (remaining lx)) (collectToken fuel lx) := by
  have hnext : (remaining lx).getD 1 0 = lx.nextChar := by rw [h.next, LexInv.charAt_add]
  unfold tempText collectToken
  rw [h.remaining_head, hnext]
  split_ifs with hword hbin hhex hdigit
  · exact collectId_copies h hroom
  · obtain ⟨hfirst, hsecond⟩ := not_end_of_prefix h (.inl hbin)
    exact collectPrefixed_copies ⟨by decide, by decide⟩ h hroom hfirst hsecond
  · obtain ⟨hfirst, hsecond⟩ := not_end_of_prefix h (.inr hhex)
    exact collectPrefixed_copies ⟨by decide, by decide⟩ h hroom hfirst hsecond
  · exact collectNumber_copies h hroom
  · exact collectOneChars_copies

end Collectors

/-! ## Literals -/

section Strings

variable {lx : TasmLexer} {fuel room lim : Nat}

theorem LineEnds.length_lt (h : OnText lx) (hends : LineEnds lx) : lineLength (remaining lx) < (remaining lx).length := by
  have hline := hends.2
  have hsize : lx.sourceCodeSize ≤ lx.sourceCode.length := by
    rw [h.size]
    exact (List.takeWhile_prefix _).length_le
  unfold remaining at hline ⊢
  rw [List.length_drop]
  omega

/-- The scan for the end of the line. -/
theorem lineEndLoop_post (h : OnText lx) (hroom : (remaining lx).length ≤ room) :
    (lineEndLoop fuel lx).Post (fun e => e = .fuel ∧ (LineEnds lx → fuel ≤ room)) fun r =>
      r = ({ lx with peek := lineLength (remaining lx) + 1 }, lineLength (remaining lx)) ∧ LineEnds lx := by
  refine .intro (fun e he => ⟨?_, ?_⟩) fun r hr => ?_
  · have hpost : (lineEndLoop fuel lx).Post (fun e => e = .fuel) fun _ => True :=
      .bind ((Loop.run_post (F := fun e => e = .fuel) rfl (fun _ => True) (fun _ _ _ => .ok trivial) fuel _ trivial).mono (fun _ he => he)
        fun _ _ => trivial)
    exact hpost.of_error he
  · rintro ⟨hpk, hline⟩
    by_contra hfuel
    have hlen := LineEnds.length_lt h ⟨hpk, hline⟩
    rw [lineEndLoop_ends hpk hline hlen (by omega)] at he
    cases he
  · obtain ⟨heq, hends⟩ := lineEndLoop_onText h hr
    exact ⟨heq, hends⟩

/-- The scan so far: what it has collected and what it will make up the text of the literal. -/
structure Copying (lx : TasmLexer) (lim : Nat) (s : TasmLexer × List Byte) : Prop where
  onText : OnText s.1
  room : s.2.length ≤ lim + 1
  text : s.2 ++ litText (lim + 1 - s.2.length) (remaining s.1) = litText (lim + 1) (remaining lx)

/-- Characters to pass and bytes to collect. -/
def scanMeasure (lim : Nat) (s : TasmLexer × List Byte) : Nat := (remaining s.1).length + (lim + 1 - s.2.length)

/-- The byte that is put next. -/
theorem Copying.put {l l' : TasmLexer} {text : List Byte} {b : Byte} (h : Copying lx lim (l, text)) (hlim : text.length ≤ lim)
    (h' : OnText l') (hnext : litText (lim - text.length + 1) (remaining l) = b :: litText (lim - text.length) (remaining l'))
    (hle : (remaining l').length ≤ (remaining l).length) :
    ((tempPut text b).map fun text => (l', text)).Post (Fails fuel room (some (litText (lim + 1) (remaining lx))))
      fun s' => Copying lx lim s' ∧ scanMeasure lim s' < scanMeasure lim (l, text) := by
  have htext : text ++ b :: litText (lim - text.length) (remaining l') = litText (lim + 1) (remaining lx) := by
    have heq := h.text
    dsimp only at heq
    rwa [show lim + 1 - text.length = lim - text.length + 1 by omega, hnext] at heq
  refine .map (.ite (fun _ => ⟨⟨h', ?_, ?_⟩, ?_⟩) fun hfull => .inr ⟨rfl, _, rfl, ?_⟩)
  · simpa using hlim
  · rw [← htext]
    simp
  · simp only [scanMeasure, List.length_append, List.length_singleton]
    omega
  · rw [← htext, List.length_append, List.length_cons]
    omega

/-- One turn of the scan. -/
theorem strBody_copies {s : TasmLexer × List Byte} (h : Copying lx lim s) (hc : s.1.currentChar ≠ chr '"' ∧ s.2.length ≤ lim) :
    (strBody s).Post (Fails fuel room (some (litText (lim + 1) (remaining lx))))
      fun s' => Copying lx lim s' ∧ scanMeasure lim s' < scanMeasure lim s := by
  obtain ⟨l, text⟩ := s
  obtain ⟨hq, hlim⟩ := hc
  have hl : OnText l := h.onText
  have hhead := hl.remaining_head
  dsimp only at hq hlim
  unfold strBody
  dsimp only
  refine .ite (fun hback => ?_) fun hback => ?_
  · have hend : ¬ AtEnd l := by
      rintro (he | he) <;> rw [hback] at he <;> cases he
    obtain ⟨h₁, hrem, -⟩ := hl.advance_cons hend
    have hhead₁ := h₁.remaining_head
    rw [hback] at hrem
    cases hesc : unescape (tasmLexerAdvance l).currentChar with
    | some b =>
      have hend₁ : ¬ AtEnd (tasmLexerAdvance l) := by
        rintro (he | he) <;> rw [he] at hesc <;> cases hesc
      obtain ⟨h₂, hrem₁, -⟩ := h₁.advance_cons hend₁
      refine h.put hlim h₂ ?_ ?_
      · rw [hrem, hrem₁, litText_escape hend₁, hesc]
      · rw [hrem, hrem₁]
        simp only [List.length_cons]
        omega
    | none =>
      -- an unknown escape sequence is passed over
      have hreported : OnText ((tasmLexerAdvance l).report (.unknownEscape (tasmLexerAdvance l).currentChar)) :=
        ⟨h₁.size, h₁.cursor, h₁.current, h₁.next, h₁.peek⟩
      have passed {l' : TasmLexer} (h' : OnText l') (hless : (remaining l').length < (remaining l).length)
          (hsame : litText (lim - text.length + 1) (remaining l') = litText (lim - text.length + 1) (remaining l)) :
          Copying lx lim (l', text) ∧ scanMeasure lim (l', text) < scanMeasure lim (l, text) := by
        refine ⟨⟨h', Nat.le_succ_of_le hlim, ?_⟩, Nat.add_lt_add_right hless _⟩
        have heq := h.text
        dsimp only at heq ⊢
        rwa [show lim + 1 - text.length = lim - text.length + 1 by omega, hsame,
          ← show lim + 1 - text.length = lim - text.length + 1 by omega]
      refine .ok ?_
      by_cases hend₁ : AtEnd (tasmLexerAdvance l)
      · have hlast : (remaining (tasmLexerAdvance l)).headD 0 = 0 ∨ (remaining (tasmLexerAdvance l)).headD 0 = eofChar := by
          rw [hhead₁]
          exact hend₁
        rw [hreported.advance_end hend₁]
        refine passed hreported ?_ ?_
        · rw [hrem]
          exact Nat.lt_succ_self _
        · rw [hrem, litText_escape_end hlast]
          rfl
      · obtain ⟨h₂, hrem₁, -⟩ := hreported.advance_cons hend₁
        have hrem₁ : remaining (tasmLexerAdvance l) = (tasmLexerAdvance l).currentChar :: _ := hrem₁
        refine passed h₂ ?_ ?_
        · rw [hrem, hrem₁]
          simp only [List.length_cons]
          omega
        · rw [hrem, hrem₁, litText_escape hend₁, hesc]
  · by_cases hend : AtEnd l
    · -- the last character is put into the text again and again
      have hlast : (remaining l).headD 0 = 0 ∨ (remaining l).headD 0 = eofChar := by
        rw [hhead]
        exact hend
      rw [hl.advance_end hend]
      refine h.put hlim hl ?_ (Nat.le_refl _)
      rw [litText_end hlast, litText_end hlast, hhead]
      rfl
    · obtain ⟨h₁, hrem, -⟩ := hl.advance_cons hend
      refine h.put hlim h₁ ?_ (by rw [hrem]; exact Nat.le_succ _)
      conv_lhs => rw [hrem]
      exact litText_char hq hend hback

/-- `tasm_lexer_collect_str`. -/
theorem collectStr_copies (h : OnText lx) (hends : LineEnds lx) (hroom : 2 * (remaining lx).length ≤ room) :
    Copies fuel room (some (litText (lineLength (remaining lx) + 1) (remaining lx))) (tasmLexerCollectStr fuel lx) := by
  refine .bind ((lineEndLoop_post h (show (remaining lx).length ≤ room by omega)).mono (fun e he => .inl ⟨he.1, fun _ => he.2 hends⟩) ?_)
  rintro ⟨lx₁, lim⟩ ⟨heq, -⟩
  obtain ⟨rfl, rfl⟩ := Prod.mk.inj heq
  obtain ⟨peek, hpeek, hstart⟩ := peekReset_onText h (lineLength (remaining lx) + 1)
  dsimp only
  rw [hpeek]
  have hlim := hends.length_lt h
  have hbegin : Copying lx (lineLength (remaining lx)) ({ lx with peek }, []) := ⟨hstart, Nat.zero_le _, rfl⟩
  refine .bind ((Loop.run_bounded (F := Fails fuel room (some (litText (lineLength (remaining lx) + 1) (remaining lx))))
    (Copying lx (lineLength (remaining lx))) (scanMeasure (lineLength (remaining lx)))
    (fun s hs hc => strBody_copies hs (strCond_true.mp hc)) fuel _ hbegin).mono ?_ ?_)
  · rintro e (⟨rfl, hle⟩ | he)
    · refine .inl ⟨rfl, fun _ => ?_⟩
      have hle : fuel ≤ (remaining lx).length + (lineLength (remaining lx) + 1) := hle
      omega
    · exact he
  · rintro ⟨l, text⟩ ⟨⟨hl, hlen, htext⟩, hexit⟩
    -- the scan is over: nothing more is collected
    have hdone : litText (lineLength (remaining lx) + 1 - text.length) (remaining l) = [] := by
      by_cases hq : l.currentChar = chr '"'
      · exact litText_quote (hl.remaining_head.trans hq)
      · have hfull : ¬ text.length ≤ lineLength (remaining lx) := fun hle => by
          rw [strCond_true.mpr ⟨hq, hle⟩] at hexit
          cases hexit
        rw [show lineLength (remaining lx) + 1 - text.length = 0 by omega, litText_zero]
    dsimp only at htext
    rw [hdone, List.append_nil] at htext
    subst htext
    exact tempEnd_copies (fun _ => .string) _ _

end Strings

/-! ## Calls -/

section Calls

variable {lx lx' : TasmLexer} {t : TasmToken} {fuel room : Nat}

/-- A call copies the text that it should, or fails. -/
theorem getNextToken_copies (h : OnText lx) (hroom : 2 * (remaining lx).length ≤ room) :
    Copies fuel room (copiedText lx) (tasmLexerGetNextToken fuel lx) := by
  unfold copiedText tasmLexerGetNextToken
  by_cases hstr : inString lx = true
  · rw [if_pos hstr, if_pos hstr]
    by_cases hends : LineEnds lx
    · rw [if_pos hends]
      exact collectStr_copies h hends hroom
    · -- the scan for the end of the line never ends
      rw [if_neg hends]
      refine .bind ((lineEndLoop_post h (Nat.le_refl _)).mono (fun e he => .inl ⟨he.1, nofun⟩) ?_)
      rintro r ⟨-, hno⟩
      exact absurd hno hends
  · rw [if_neg hstr, if_neg hstr]
    by_cases hchar : inChar lx = true
    · rw [if_pos hchar, if_pos hchar]
      unfold tasmLexerCollectChar
      dsimp only
      -- the closing apostrophe stays for the next call
      by_cases hclose : (tasmLexerAdvance lx).currentChar = chr '\''
      · rw [if_pos hclose, if_neg (not_not.mpr hclose)]
        rintro v hv
        obtain rfl := Option.some.inj hv
        exact ⟨by simp, rfl⟩
      · rw [if_neg hclose, if_pos hclose]
        rintro v hv
        cases hv
    · rw [if_neg hchar, if_neg hchar]
      have hblank : Stops isBlank := ⟨by decide, by decide⟩
      refine .bind ((advanceWhile_post hblank h).mono ?_ ?_)
      · rintro e ⟨he, hle⟩
        exact .inl ⟨he, fun _ => by omega⟩
      · rintro lx₁ ⟨h₁, hrem⟩
        rw [← hrem]
        refine collectToken_copies h₁ ?_
        have hle := List.length_dropWhile_le isBlank (remaining lx)
        rw [← hrem] at hle
        omega

theorem LexReach.onText (hr : LexReach lx lx') (h : OnText lx) : OnText lx' := by
  induction hr with
  | refl => exact h
  | tail _ hstep ih =>
    obtain ⟨t, hc⟩ := hstep
    exact (hc.reports ih).1

/-- One call. -/
theorem tempValKept_iff (h : OnText lx) : TempValKept lx ↔ TokenFits lx := by
  constructor
  · rintro ⟨hinside, -⟩ w hw
    by_contra hlong
    -- with enough fuel the call can only have failed behind the buffer
    let room := 2 * (remaining lx).length
    have hpost : Copies (room + 1) room (copiedText lx) (tasmLexerGetNextToken (room + 1) lx) :=
      getNextToken_copies h (Nat.le_refl room)
    cases hr : tasmLexerGetNextToken (room + 1) lx with
    | ok r =>
      rw [hr] at hpost
      exact hlong (hpost w hw).1
    | error e =>
      rw [hr] at hpost
      rcases hpost with ⟨-, hle⟩ | ⟨rfl, -⟩
      · exact absurd (hle (by rw [hw]; rfl)) (Nat.not_succ_le_self room)
      · exact hinside (room + 1) hr
  · intro hfits
    constructor
    · intro fuel he
      rcases (getNextToken_copies h (Nat.le_refl _)).of_error he with ⟨hfuel, -⟩ | ⟨-, w, hw, hlong⟩
      · cases hfuel
      · exact absurd (hfits w hw) (Nat.not_le_of_lt hlong)
    · rintro t lx' ⟨fuel, hr⟩ w hw
      exact ((getNextToken_copies h (Nat.le_refl _)).of_ok hr w hw).2

end Calls

/-- For every text, whatever bytes it has: no call of the lexer writes behind `temp_val`, and every value is the text
written, if and only if no identifier, number or string literal that a call comes to has more than 127 bytes of text. -/
theorem temp_val_iff (text : List Byte) :
    (∀ lx, LexReach (tasmLexerInit (marked text)) lx → TempValKept lx) ↔
      ∀ lx, LexReach (tasmLexerInit (marked text)) lx → TokenFits lx := by
  have hinit := OnText.init (marked text)
  constructor
  · intro hkept lx hr
    exact (tempValKept_iff (hr.onText hinit)).mp (hkept lx hr)
  · intro hfits lx hr
    exact (tempValKept_iff (hr.onText hinit)).mpr (hfits lx hr)

/-- An identifier of 128 characters: its NUL is written behind the buffer. -/
theorem long_identifier : ¬ ∀ lx, LexReach (tasmLexerInit (marked (List.replicate 128 (chr 'a')))) lx → TempValKept lx := by
  intro hall
  have hfits := (tempValKept_iff (OnText.init _)).mp (hall _ .refl)
  have hlong : ∃ w ∈ copiedText (tasmLexerInit (marked (List.replicate 128 (chr 'a')))), 127 < w.length := by decide +kernel
  obtain ⟨w, hw, hlen⟩ := hlong
  exact absurd (hfits w hw) (Nat.not_le_of_lt hlen)

end TileVm
